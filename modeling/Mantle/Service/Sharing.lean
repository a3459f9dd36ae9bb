import Mathlib.Data.List.DropRight
import Mantle.Access.Claim
import Mantle.Base.Upsert
import Mantle.Service.Create

/-!
# Mantle.Service.Sharing — sharing one action (`db/access.py`)

Three calls go through `upsert_user_collection_grant`, which gives all nine flags anew to the first active user grant
the grantee has on the resource, be it an allow or a deny.
-/

namespace Mantle

open Tx Upsert

variable {a : Action} {b : Bool} {db' : Store} {time uuid y : String} {v : Val}

variable {db : Store} {e id k : String} {g : GrantAttrs}

/-! ### The calls -/

/-- `upsert_user_collection_grant`, of whoever grants. -/
def upsertUserGrant (now : Val → Bool) (p : Particulars) (grantedBy userId resourceId : String)
    (flags : Action → Bool) : ServiceM PUnit := do
  let n ← get
  let held ← ofAccess ((resourceGrantDocs now n.db userId resourceId).mapM GrantAttrs.fromDict)
  match held.find? fun g => (g "grantee_type").eqStr "user" with
  | some g =>
    if Action.all.all fun a => (g a.flag).pyEq (.bool (flags a)) then pure ⟨⟩
    else do
      let _ ← stored (putGrant (g.setFlags flags))
      pure ⟨⟩
  | none => do
    let _ ← stored (putGrant (GrantAttrs.build (p.doc ++ flagDoc flags ++
      [("resource_id", .str resourceId), ("grantee_type", .str "user"), ("grantee_id", .str userId),
       ("granted_by", .str grantedBy)])))
    pure ⟨⟩

/-- A new grant without a name, notes or an expiry: its id and the time. -/
def unnamed (uuid time : String) : Particulars := ⟨uuid, time, none, none, none⟩

def onlyFlag (x : Action) : Action → Bool := fun a => decide (a = x)

section Calls

variable (now : Val → Bool) (uuid time : String)

def grantInvoke (resourceId grantee grantedBy : String) : ServiceM PUnit :=
  upsertUserGrant now (unnamed uuid time) grantedBy grantee resourceId (onlyFlag .invoke)

def grantRead (resourceId grantee grantedBy : String) : ServiceM PUnit :=
  upsertUserGrant now (unnamed uuid time) grantedBy grantee resourceId (onlyFlag .read)

def mintOwnerReadGrant (collectionId owner : String) : ServiceM PUnit :=
  grantRead now uuid time collectionId owner owner

end Calls

inductive Sharing
  | read (grantedBy : String)
  | invoke (grantedBy : String)
  | ownerRead

namespace Sharing

def call (now : Val → Bool) (uuid time resourceId grantee : String) : Sharing → ServiceM PUnit
  | read by_ => grantRead now uuid time resourceId grantee by_
  | invoke by_ => grantInvoke now uuid time resourceId grantee by_
  | ownerRead => mintOwnerReadGrant now uuid time resourceId grantee

/-- What is granted. -/
def action : Sharing → Action
  | read _ | ownerRead => .read
  | invoke _ => .invoke

end Sharing

/-! ### What a grantee holds on a resource -/

/-- `effective_flags` allows the action: an active grant does, and none denies it. -/
def MayDo (now : Val → Bool) (db : Store) (grantee resourceId : String) (a : Action) : Prop :=
  ∃ held, effectiveFlags now db grantee resourceId = .ok held ∧ held a = true

def entryOf (d : Doc) : Option (Entry Action) :=
  (Grant.ofDoc d).toOption.map fun g => ⟨(d.get "grantee_type").eqStr "user", g.isAllow, g.flag⟩

/-- The active grants of a grantee on a resource, by their ids. -/
def entryAt (now : Val → Bool) (db : Store) (grantee resourceId id : String) : Option (Entry Action) :=
  (grantAt db id).bind fun d =>
    if inForce now d && (d.get "grantee_id").eqStr grantee && (d.get "resource_id").eqStr resourceId then entryOf d
    else none

/-! ### Texts -/

theorem upper_cases {P : Char → Prop} (h : ∀ n < 26, P (Char.ofNat (65 + n))) {c : Char} (hc : c.toLower ≠ c) :
    P c := by
  have hin : 65 ≤ c.toNat ∧ c.toNat ≤ 90 := by
    by_contra hno
    refine hc ?_
    unfold Char.toLower
    rw [dif_neg]
    exact fun h => hno ⟨h.1, h.2⟩
  have hn := h (c.toNat - 65) (by omega)
  rwa [Nat.add_sub_cancel' hin.1, Char.ofNat_toNat] at hn

theorem toLower_space (c : Char) : isPySpace c.toLower = isPySpace c := by
  by_cases hc : c.toLower = c
  · rw [hc]
  · exact upper_cases (P := fun c => isPySpace c.toLower = isPySpace c) (by decide +kernel) hc

theorem toLower_toLower (c : Char) : c.toLower.toLower = c.toLower := by
  by_cases hc : c.toLower = c
  · rw [hc, hc]
  · exact upper_cases (P := fun c => c.toLower.toLower = c.toLower) (by decide +kernel) hc

theorem dropWhile_trimmed (p : Char → Bool) (l : List Char) :
    ((l.dropWhile p).rdropWhile p).dropWhile p = (l.dropWhile p).rdropWhile p := by
  refine List.dropWhile_eq_self_iff.mpr fun hl => ?_
  have hpre := List.rdropWhile_prefix p (l := l.dropWhile p)
  have hhead := List.dropWhile_get_zero_not p l (Nat.lt_of_lt_of_le hl hpre.length_le)
  rw [List.get_eq_getElem] at hhead
  rw [hpre.getElem hl]
  exact hhead

theorem normText_normText (s : String) : normText (normText s) = normText s := by
  have hspace : isPySpace ∘ Char.toLower = isPySpace := funext toLower_space
  have hlower : Char.toLower ∘ Char.toLower = Char.toLower := funext toLower_toLower
  have hnorm : ∀ s : String,
      (normText s).toList = ((s.toList.dropWhile isPySpace).rdropWhile isPySpace).map Char.toLower := fun s => by
    unfold normText List.rdropWhile
    rw [String.toList_ofList]
  refine String.toList_inj.mp ?_
  rw [hnorm, hnorm, List.dropWhile_map, hspace, dropWhile_trimmed]
  unfold List.rdropWhile
  rw [← List.map_reverse, List.dropWhile_map, hspace, ← List.map_reverse, List.map_map, hlower]
  exact congrArg (List.map Char.toLower) (List.rdropWhile_idempotent isPySpace _)

theorem effectOf_again (h : effectOf v = .ok e) : effectOf (.str e) = .ok e := by
  have hallow : effectOf (.str "allow") = .ok "allow" := by decide +kernel
  cases v with
  | str s =>
    unfold effectOf at h
    dsimp only at h
    by_cases hs : normText s = ""
    · rw [if_pos hs] at h
      cases h
      exact hallow
    · rw [if_neg hs] at h
      cases h
      unfold effectOf
      dsimp only
      rw [normText_normText, if_neg hs]
  | _ =>
    unfold effectOf at h
    dsimp only at h
    split_ifs at h
    cases h
    exact hallow

theorem truthy_of_pyEq (h : v.pyEq (.bool b) = true) : v.truthy = b := by
  cases v with
  | none => cases h
  | bool x => cases x <;> cases b <;> simp_all [Val.pyEq, Val.truthy, Val.eqInt]
  | int n => cases b <;> simp_all [Val.pyEq, Val.truthy, Val.eqInt]; omega
  | float f => cases b <;> simp_all [Val.pyEq, Val.truthy, Val.asInt]
  | str s => cases h
  | _ => cases h

/-! ### A grant that is stored -/

theorem GrantStored.get (h : GrantStored g id db db') :
    ∃ d, grantAt db' id = some d ∧ (∀ k ∈ grantFields, k ≠ "created_time" → d.get k = (g k).norm) ∧
      ∀ k ∈ grantFields, k ≠ "created_time" → (g k).isNone = false → d.find? k = some (g k).norm := by
  obtain ⟨d, hd, hfields⟩ := h.row
  have hfind : ∀ k ∈ grantFields, k ≠ "created_time" →
      d.find? k = (if (g k).isNone then none else some (g k)).map Val.norm := fun k hk hne => by
    rw [hfields k hk hne, GrantAttrs.toDoc_find? g hk]
  refine ⟨d, hd, fun k hk hne => ?_, fun k hk hne hsome => ?_⟩
  · unfold Doc.get
    rw [hfind k hk hne]
    cases g k <;> rfl
  · rw [hfind k hk hne, hsome]
    rfl

theorem GrantStored.entryAt_self {grantee rid : String} {now : Val → Bool} {flags : Action → Bool}
    (h : GrantStored g id db db') (hstate : g "state" = .str "active")
    (hexp : (g "expires_at").norm.truthy = true → now (g "expires_at").norm = true)
    (hgrantee : g "grantee_id" = .str grantee) (hrid : g "resource_id" = .str rid)
    (htype : g "grantee_type" = .str "user") (heffect : g "effect" = .str e) (he : effectOf (.str e) = .ok e)
    (hflags : ∀ a : Action, g a.flag = .bool (flags a)) :
    entryAt now db' grantee rid id = some ⟨true, decide (e = "allow"), flags⟩ := by
  obtain ⟨d, hd, hget, hfind⟩ := h.get
  have hforce : inForce now d = true := by
    unfold inForce unexpired
    rw [hget "state" (by decide) (by decide), hget "expires_at" (by decide) (by decide), hstate]
    simp only [Bool.and_eq_true, Bool.or_eq_true, Bool.not_eq_true']
    refine ⟨rfl, ?_⟩
    by_cases ht : (g "expires_at").norm.truthy = true
    · exact .inr (hexp ht)
    · exact .inl (by simpa using ht)
  have hof : Grant.ofDoc d = .ok ⟨.str rid, e, flags⟩ := by
    rw [grant_ofDoc_eq, hfind "effect" (by decide) (by decide) (by rw [heffect]; rfl),
      hfind "resource_id" (by decide) (by decide) (by rw [hrid]; rfl), heffect, hrid]
    have hbit : d.bit = flags := by
      funext a
      unfold Doc.bit
      rw [hfind a.flag (flag_mem_grantFields a) (by cases a <;> decide) (by rw [hflags]; rfl), hflags]
      rfl
    change (effectOf (.str e)).map _ = _
    rw [he, hbit]
    rfl
  unfold entryAt entryOf
  rw [hd, Option.bind_some, hforce, hget "grantee_id" (by decide) (by decide),
    hget "resource_id" (by decide) (by decide), hgrantee, hrid, hof, hget "grantee_type" (by decide) (by decide), htype]
  simp [Val.norm, Val.eqStr, Val.asStr, Except.toOption, Grant.isAllow]

/-! ### What a grantee may do, by its entries -/

section Entries

variable {now : Val → Bool} {db db' : Store} {grantee rid : String}

/-- Every active grant the grantee has on the resource can be read. -/
def Readable (now : Val → Bool) (db : Store) (grantee rid : String) : Prop :=
  ∀ d ∈ resourceGrantDocs now db grantee rid, ∃ g, GrantEntity.ofDoc d = .ok g

theorem entryAt_some {e : Entry Action} (hu : grantee ≠ "") :
    entryAt now db grantee rid id = some e ↔ ∃ d ∈ resourceGrantDocs now db grantee rid, ∃ g, grantAt db id = some d ∧
      GrantEntity.ofDoc d = .ok g ∧ e = ⟨(d.get "grantee_type").eqStr "user", g.isAllow, g.flag⟩ := by
  unfold entryAt entryOf
  constructor
  · intro h
    obtain ⟨d, hd, h⟩ := Option.bind_eq_some_iff.mp h
    split_ifs at h with hc
    simp only [Bool.and_eq_true] at hc
    obtain ⟨g, hg, rfl⟩ := Option.map_eq_some_iff.mp h
    obtain ⟨g', hg', rfl⟩ := ofDoc_of_grant (ok_of_toOption hg)
    exact ⟨d, mem_resourceDocs.mpr ⟨hu, ⟨id, hd, hc.1.2⟩, hc.1.1, hc.2⟩, g', hd, hg', rfl⟩
  · rintro ⟨d, hd, g, hat, hg, rfl⟩
    obtain ⟨-, ⟨-, -, hgrantee⟩, hforce, hrid⟩ := mem_resourceDocs.mp hd
    rw [hat, Option.bind_some, if_pos (by rw [hforce, hgrantee, hrid]; rfl), (GrantEntity.ofDoc_ok hg).1]
    rfl

theorem mayDo_iff (hu : grantee ≠ "") (hr : Readable now db grantee rid) (a : Action) :
    MayDo now db grantee rid a ↔ Allowed (entryAt now db grantee rid) a := by
  obtain ⟨held, hheld⟩ := effectiveFlags_isOk.mpr (.inr hr)
  have hmay : MayDo now db grantee rid a ↔ held a = true := by
    constructor
    · rintro ⟨held', hheld', ha⟩
      rw [hheld] at hheld'
      cases hheld'
      exact ha
    · exact fun ha => ⟨held, hheld, ha⟩
  rw [hmay, effectiveFlags_iff hheld]
  constructor
  · rintro ⟨-, ⟨d, hd, g, hg, -, hallow, hflag⟩, hnone⟩
    obtain ⟨-, ⟨id, hid, -⟩, -⟩ := mem_resourceDocs.mp hd
    refine ⟨⟨id, _, (entryAt_some hu).mpr ⟨d, hd, g, hid, hg, rfl⟩, hallow, hflag⟩, fun id' e he hdeny => ?_⟩
    obtain ⟨d', hd', g', -, hg', rfl⟩ := (entryAt_some hu).mp he
    exact hnone d' hd' g' hg' rfl hdeny
  · rintro ⟨⟨id, e, he, hallow, hflag⟩, hnone⟩
    obtain ⟨d, hd, g, -, hg, rfl⟩ := (entryAt_some hu).mp he
    refine ⟨hu, ⟨d, hd, g, hg, rfl, hallow, hflag⟩, fun d' hd' g' hg' _ hdeny => ?_⟩
    obtain ⟨-, ⟨id', hid', -⟩, -⟩ := mem_resourceDocs.mp hd'
    exact hnone id' _ ((entryAt_some hu).mpr ⟨d', hd', g', hid', hg', rfl⟩) hdeny

theorem GrantStored.entryAt_other (h : GrantStored g id db db') (hk : k ≠ id) :
    entryAt now db' grantee rid k = entryAt now db grantee rid k := by
  unfold entryAt grantAt
  rw [h.others k hk]

theorem ofDoc_of_fromDict {d : Doc} (h : GrantAttrs.fromDict d = .ok g) :
    ∃ e g', effectOf ((d.find? "effect").getD (.str "allow")) = .ok e ∧ g "effect" = .str e ∧
      GrantEntity.ofDoc d = .ok g' ∧ g'.isAllow = decide (e = "allow") ∧ g'.flag = fun a => d.bit a := by
  obtain ⟨e, he, rfl⟩ := map_ok h
  obtain ⟨g', hg', hto⟩ := ofDoc_of_grant (d := d) (g := ⟨(d.find? "resource_id").getD (.str ""), e, fun a => d.bit a⟩)
    (by rw [grant_ofDoc_eq, he]; rfl)
  refine ⟨e, g', he, by simp, hg', ?_, ?_⟩
  · change decide (g'.toGrant.effect = "allow") = _
    rw [hto]
  · rw [hto]

theorem GrantStored.readable (h : GrantStored g id db db') (heffect : g "effect" = .str e)
    (he : effectOf (.str e) = .ok e) (hr : Readable now db grantee rid) :
    Readable now db' grantee rid := by
  intro d hd
  obtain ⟨hu, ⟨k, hk, hgrantee⟩, hforce, hrid⟩ := mem_resourceDocs.mp hd
  by_cases hid : k = id
  · subst hid
    obtain ⟨d', hd', -, hfind⟩ := h.get
    rw [hk] at hd'
    cases hd'
    obtain ⟨g', hg', -⟩ := ofDoc_of_grant (d := d)
      (g := ⟨(d.find? "resource_id").getD (.str ""), e, fun a => d.bit a⟩) (by
      rw [grant_ofDoc_eq, hfind "effect" (by decide) (by decide) (by rw [heffect]; rfl), heffect]
      change (effectOf (.str e)).map _ = _
      rw [he]
      rfl)
    exact ⟨g', hg'⟩
  · refine hr d (mem_resourceDocs.mpr ⟨hu, ⟨k, ?_, hgrantee⟩, hforce, hrid⟩)
    unfold grantAt at hk ⊢
    rwa [h.others k hid] at hk

end Entries

/-! ### The grant that is overwritten -/

theorem mapM_pairwise {α β ε : Type} {f : α → Except ε β} {R : α → α → Prop} {S : β → β → Prop}
    (hRS : ∀ a b x y, f a = .ok x → f b = .ok y → R a b → S x y) :
    ∀ {xs : List α} {ys : List β}, xs.mapM f = .ok ys → xs.Pairwise R → ys.Pairwise S
  | [], ys, h, _ => by
    rw [List.mapM_nil] at h
    cases h
    exact .nil
  | a :: xs, ys, h, hp => by
    rw [List.mapM_cons] at h
    obtain ⟨y, hy, h⟩ := Mantle.bind_ok h
    obtain ⟨ys, hys, h⟩ := Mantle.bind_ok h
    cases h
    refine List.pairwise_cons.mpr ⟨fun z hz => ?_, mapM_pairwise hRS hys (List.pairwise_cons.mp hp).2⟩
    obtain ⟨b, hb, hz⟩ := (mapM_ok hys z).mp hz
    exact hRS a b y z hy hz ((List.pairwise_cons.mp hp).1 b hb)

section First

variable {now : Val → Bool} {db : Store} {grantee rid : String} {held : List GrantAttrs}

theorem mem_held (hd : Documented db) (h : (resourceGrantDocs now db grantee rid).mapM GrantAttrs.fromDict = .ok held)
    (hg : g ∈ held) : ∃ y r, db.vertex.lookup y = some r ∧ grantAt db y = some r.doc.val ∧
      r.doc.val ∈ resourceGrantDocs now db grantee rid ∧ GrantAttrs.fromDict r.doc.val = .ok g ∧ g "id" = .str y := by
  obtain ⟨d, hmem, hread⟩ := (mapM_ok h g).mp hg
  obtain ⟨-, ⟨y, hy, -⟩, -⟩ := mem_resourceDocs.mp hmem
  obtain ⟨r, hr, rfl⟩ := grantAt_row hy
  refine ⟨y, r, hr, hy, hmem, hread, ?_⟩
  rw [fromDict_attr hread (by decide), find_of_eqStr (eqStr_iff.mpr (hd.named y r hr).2)]

theorem held_of_entryAt (hu : grantee ≠ "")
    (h : (resourceGrantDocs now db grantee rid).mapM GrantAttrs.fromDict = .ok held) {e : Entry Action}
    (he : entryAt now db grantee rid k = some e) : ∃ d g, grantAt db k = some d ∧ g ∈ held ∧
      GrantAttrs.fromDict d = .ok g ∧ e.own = (g "grantee_type").eqStr "user" := by
  obtain ⟨d, hd, g, hat, -, rfl⟩ := (entryAt_some hu).mp he
  obtain ⟨g', hg'⟩ := mapM_isOk.mp ⟨held, h⟩ d hd
  refine ⟨d, g', hat, (mapM_ok h g').mpr ⟨d, hd, hg'⟩, hg', ?_⟩
  rw [fromDict_attr hg' (by decide)]
  unfold Doc.get
  cases d.find? "grantee_type" <;> rfl

/-- The grant that is overwritten: a row in force, read as `g`, and the first entry that is a user's. -/
structure Overwritten (now : Val → Bool) (db : Store) (grantee rid : String) (g : GrantAttrs) (y : String)
    (e : Entry Action) : Prop where
  row : ∃ r, db.vertex.lookup y = some r ∧ r.doc.val ∈ resourceGrantDocs now db grantee rid ∧
    GrantAttrs.fromDict r.doc.val = .ok g
  id : g "id" = .str y
  first : First (entryAt now db grantee rid) y e
  effect : ∃ effect, effectOf (.str effect) = .ok effect ∧ g "effect" = .str effect ∧ e.allow = decide (effect = "allow")
  acts : ∀ a : Action, e.acts a = (g a.flag).truthy

theorem held_sorted (hd : Documented db)
    (h : (resourceGrantDocs now db grantee rid).mapM GrantAttrs.fromDict = .ok held) :
    held.Pairwise fun g h => (g "id").pyStr < (h "id").pyStr := by
  let L : GrantLedger := ⟨db, fun id r hr => (hd.named id r hr).2⟩
  have hdocs := (grantDocs_sorted L grantee fun d => inForce now d && (d.get "resource_id").eqStr rid).imp_of_mem
    (S := fun d d' => ∃ y y' : String, d.get "id" = .str y ∧ d'.get "id" = .str y' ∧ y < y') (by
      intro d d' hm hm' hlt
      have hid : ∀ d ∈ resourceGrantDocs now db grantee rid, ∃ y, d.get "id" = .str y := by
        intro d hm
        obtain ⟨-, ⟨y, hy, -⟩, -⟩ := mem_resourceDocs.mp hm
        obtain ⟨r, hr, rfl⟩ := grantAt_row hy
        exact ⟨y, (hd.named y r hr).2⟩
      obtain ⟨y, hy⟩ := hid d hm
      obtain ⟨y', hy'⟩ := hid d' hm'
      rw [hy, hy'] at hlt
      exact ⟨y, y', hy, hy', hlt⟩)
  refine mapM_pairwise ?_ h hdocs
  rintro d d' g g' hg hg' ⟨y, y', hy, hy', hlt⟩
  rw [fromDict_attr hg (by decide), fromDict_attr hg' (by decide), find_of_eqStr (eqStr_iff.mpr hy),
    find_of_eqStr (eqStr_iff.mpr hy')]
  exact hlt

theorem overwritten_of_find (hd : Documented db) (hu : grantee ≠ "")
    (h : (resourceGrantDocs now db grantee rid).mapM GrantAttrs.fromDict = .ok held)
    (hf : held.find? (fun g => (g "grantee_type").eqStr "user") = some g) :
    ∃ y e, Overwritten now db grantee rid g y e := by
  obtain ⟨hown, as, bs, rfl, has⟩ := List.find?_eq_some_iff_append.mp hf
  have hmem : g ∈ as ++ g :: bs := by simp
  obtain ⟨y, r, hr, hat, hdoc, hread, hid⟩ := mem_held hd h hmem
  obtain ⟨effect, g', heff, heffect, hof, hallow, hflag⟩ := ofDoc_of_fromDict hread
  have hkind : (r.doc.val.get "grantee_type").eqStr "user" = true := by
    obtain ⟨d', g'', hat', -, hread', hown'⟩ := held_of_entryAt hu h
      ((entryAt_some hu).mpr ⟨_, hdoc, g', hat, hof, rfl⟩)
    rw [hat] at hat'
    cases hat'
    rw [hread] at hread'
    cases hread'
    exact hown'.trans hown
  refine ⟨y, _, ⟨r, hr, hdoc, hread⟩, hid, ⟨(entryAt_some hu).mpr ⟨_, hdoc, g', hat, hof, rfl⟩, hkind, ?_⟩,
    ⟨effect, effectOf_again heff, heffect, hallow⟩, fun a => ?_⟩
  · -- the others of the user's lie behind it in the list
    intro k e he hown'
    obtain ⟨d', g'', hat', hin, hread', hkind'⟩ := held_of_entryAt hu h he
    obtain ⟨r', hr', rfl⟩ := grantAt_row hat'
    have hid' : g'' "id" = .str k := by
      rw [fromDict_attr hread' (by decide), find_of_eqStr (eqStr_iff.mpr (hd.named k r' hr').2)]
    rcases List.mem_append.mp hin with hin | hin
    · have hno := has g'' hin
      rw [← hkind', hown'] at hno
      cases hno
    · rcases List.mem_cons.mp hin with rfl | hin
      · rw [hid] at hid'
        exact (Val.str.inj hid').le
      · have hlt := List.rel_of_pairwise_cons (List.pairwise_append.mp (held_sorted hd h)).2.1 hin
        rw [hid, hid'] at hlt
        exact hlt.le
  · change g'.flag a = _
    have hdef : grantDefault a.flag = .bool (a = .read) := by cases a <;> rfl
    rw [hflag, fromDict_attr hread (by cases a <;> decide), hdef]
    rfl

theorem none_own_of_find (hu : grantee ≠ "")
    (h : (resourceGrantDocs now db grantee rid).mapM GrantAttrs.fromDict = .ok held)
    (hf : held.find? (fun g => (g "grantee_type").eqStr "user") = none) (k : String) (e : Entry Action)
    (he : entryAt now db grantee rid k = some e) : e.own = false := by
  obtain ⟨d, g, -, hin, -, hown⟩ := held_of_entryAt hu h he
  rw [hown]
  simpa using List.find?_eq_none.mp hf g hin

end First

/-! ### What a call leaves -/

/-- A node between calls, its rows in step with their documents. -/
structure Ready (n : Node) : Prop where
  idle : n.inTxn = false
  documented : Documented n.db

section Call

variable {now : Val → Bool} {n : Node} {grantee rid : String} {flags : Action → Bool}

theorem setFlags_other (hk : k ∉ Action.all.map Action.flag) :
    g.setFlags flags k = g k := by
  unfold GrantAttrs.setFlags
  rw [List.find?_eq_none.mpr fun a ha => ?_]
  simpa using fun he => hk (List.mem_map.mpr ⟨a, ha, he⟩)

theorem putGrant_documented (hid : g "id" = .str y) (hy : y ≠ "") (n : Node) :
    Keeps Documented (putGrant g) n := by
  have hdoc : WrittenDoc g.toDoc := by
    refine ⟨?_, fun b hb => ?_, .inr ⟨grantContentType, ?_⟩⟩
    · rw [GrantAttrs.toDoc_get g (by decide), hid]
      simp [Val.truthy, hy]
    · unfold Doc.get at hb
      rw [GrantAttrs.toDoc_other g (by decide)] at hb
      cases hb
    · unfold Doc.get
      rw [GrantAttrs.toDoc_other g (by decide)]
      rfl
  intro hn
  refine keeps_putArtifact documented_rowRules (fun d hd => ?_) hn
  rcases mem_putRows hd with rfl | ⟨aid, p, hp, rfl⟩
  · exact hdoc
  · exact hn.snapshot hp

theorem putGrant_ready (hid : g "id" = .str y) (hy : y ≠ "") (h : Ready n) :
    Runs (putGrant g) n (fun _ n' => GrantStored g y n.db n'.db ∧ Ready n') fun _ => True := by
  have htables := putGrant_tables g h.idle
  have hkeeps := putGrant_documented hid hy n h.documented
  unfold Runs at htables hkeeps ⊢
  cases hr : putGrant g n with
  | error e n' => trivial
  | ok d n' =>
    rw [hr] at htables hkeeps
    obtain ⟨⟨id, hg, hst⟩, hi⟩ := htables
    obtain rfl := Val.str.inj (hid.symm.trans hg)
    exact ⟨hst, hi, hkeeps.1⟩

/-- **An upsert of flags** is an upsert of the grantee's entries on the resource. -/
theorem upsertUserGrant_step (grantedBy : String) (hu : grantee ≠ "") (h : Ready n)
    (hfresh : uuid ≠ "" ∧ n.db.vertex.lookup uuid = none) :
    Runs (upsertUserGrant now (unnamed uuid time) grantedBy grantee rid flags) n
      (fun _ n' => Upsert.Step flags (entryAt now n.db grantee rid) (entryAt now n'.db grantee rid) ∧
        Readable now n.db grantee rid ∧ Readable now n'.db grantee rid ∧ Ready n')
      fun _ => True := by
  refine runs_bind (runs_get (runs_bind (runs_ofAccess (fun held hheld => ?_) trivial)))
  have hread : Readable now n.db grantee rid := fun d hd => by
    obtain ⟨g, hg⟩ := mapM_isOk.mp ⟨held, hheld⟩ d hd
    obtain ⟨-, g', -, -, hg', -⟩ := ofDoc_of_fromDict hg
    exact ⟨g', hg'⟩
  cases hfind : held.find? fun g => (g "grantee_type").eqStr "user" with
  | some g =>
    obtain ⟨y, e, ⟨r, hr, hmem, hfrom⟩, hid, hfirst, ⟨effect, heff, heffect, hallow⟩, hacts⟩ :=
      overwritten_of_find h.documented hu hheld hfind
    obtain ⟨-, ⟨-, -, hgrantee⟩, hforce, hrid⟩ := mem_resourceDocs.mp hmem
    refine runs_ite (fun heq => runs_pure ⟨?_, hread, hread, h⟩) fun _ => ?_
    · -- the flags are the ones that are there
      have hsame : e.acts = flags := funext fun a => by
        rw [hacts]
        exact truthy_of_pyEq (List.all_eq_true.mp heq a (by cases a <;> decide))
      refine .over hfirst ?_ fun _ _ => rfl
      rw [hfirst.entry, ← hsame]
    · refine runs_bind (runs_stored ((putGrant_ready (g := g.setFlags flags) hid
        (h.documented.named y r hr).1 h).imp fun _ n' hn' => runs_pure ?_))
      obtain ⟨hst, hready⟩ := hn'
      refine ⟨.over hfirst ?_ fun k hk => hst.entryAt_other hk, hread, hst.readable heffect heff hread, hready⟩
      have hexp : (g "expires_at").norm = r.doc.val.get "expires_at" := by
        rw [fromDict_attr hfrom (by decide)]
        change (r.doc.val.get "expires_at").norm = _
        rw [← Doc.get_norm, h.documented.normal y r hr]
      have hset : ∀ k ∉ Action.all.map Action.flag, k ≠ "effect" →
          g.setFlags flags k = (r.doc.val.find? k).getD (grantDefault k) :=
        fun k hk hne => (setFlags_other hk).trans (fromDict_attr hfrom hne)
      have hself : entryAt now n'.db grantee rid y = some ⟨true, decide (effect = "allow"), flags⟩ := by
        refine hst.entryAt_self ?_ ?_ ?_ ?_ ?_ heffect heff (setFlags_flag g flags)
        · rw [hset _ (by decide) (by decide), find_of_eqStr (Bool.and_eq_true_iff.mp hforce).1]
        · intro ht
          rw [setFlags_other (by decide), hexp] at ht ⊢
          have hun := (Bool.and_eq_true_iff.mp hforce).2
          unfold unexpired at hun
          rw [ht] at hun
          exact hun
        · rw [hset _ (by decide) (by decide), find_of_eqStr hgrantee]
        · rw [hset _ (by decide) (by decide), find_of_eqStr hrid]
        · have hkind : (g "grantee_type").eqStr "user" = true := by simpa using List.find?_some hfind
          rw [setFlags_other (by decide)]
          exact eqStr_iff.mp hkind
      rw [hself]
      change _ = some (Entry.mk e.own e.allow flags)
      rw [hfirst.own, hallow]
  | none =>
    refine runs_bind (runs_stored ((putGrant_ready (g := _) (y := uuid) rfl hfresh.1 h).mono
      (fun _ n' hn' => runs_pure ?_) fun _ h => h))
    obtain ⟨hst, hready⟩ := hn'
    have hallow : effectOf (.str "allow") = .ok "allow" := by decide +kernel
    refine ⟨.new (none_own_of_find hu hheld hfind) ?_ ?_ fun k hk => hst.entryAt_other hk, hread,
      hst.readable rfl hallow hread, hready⟩
    · unfold entryAt grantAt
      rw [hfresh.2]
      rfl
    · refine hst.entryAt_self rfl (fun ht => ?_) rfl rfl rfl rfl hallow fun a => ?_
      · cases ht
      · exact build_flag (unnamed uuid time) flags _ a

end Call

/-! ### What sharing one action costs -/

section Shares

variable {now : Val → Bool} {n : Node} {grantee rid : String}

/-- The id of a new grant is no row's yet. -/
def Unused (n : Node) (uuid : String) : Prop := uuid ≠ "" ∧ n.db.vertex.lookup uuid = none

theorem Sharing.call_eq (op : Sharing) (now : Val → Bool) (uuid time rid grantee : String) : ∃ grantedBy,
    op.call now uuid time rid grantee =
      upsertUserGrant now (unnamed uuid time) grantedBy grantee rid (onlyFlag op.action) := by
  cases op with
  | read by_ => exact ⟨by_, rfl⟩
  | invoke by_ => exact ⟨by_, rfl⟩
  | ownerRead => exact ⟨grantee, rfl⟩

theorem Sharing.call_step {o : Sharing} {u : PUnit} {n' : Node} (hu : grantee ≠ "") (h : Ready n)
    (hfresh : Unused n uuid) (hc : o.call now uuid time rid grantee n = .ok u n') :
    Upsert.Step (onlyFlag o.action) (entryAt now n.db grantee rid) (entryAt now n'.db grantee rid) ∧
      Readable now n.db grantee rid ∧ Readable now n'.db grantee rid ∧ Ready n' := by
  obtain ⟨by_, he⟩ := o.call_eq now uuid time rid grantee
  rw [he] at hc
  exact (upsertUserGrant_step by_ hu h hfresh).ok hc

theorem not_mayDo_nobody : ¬MayDo now db "" rid a := by
  rintro ⟨held, hheld, ha⟩
  exact ((effectiveFlags_iff hheld a).mp ha).named rfl

/-- A share costs the grantee nothing and gives it the action. -/
def SharesSafely (now : Val → Bool) (grantee rid : String) (x : Action) (n n' : Node) : Prop :=
  (∀ a, MayDo now n.db grantee rid a → MayDo now n'.db grantee rid a) ∧ MayDo now n'.db grantee rid x

/-- An action that the two flags differ in is denied by another grant, or allowed by one exactly if the grant that is
overwritten is an allow. -/
def Settles (now : Val → Bool) (db : Store) (grantee rid : String) : Prop :=
  ∀ a, a = .read ∨ a = .invoke → OtherDenies (entryAt now db grantee rid) a ∨
    (OtherAllows (entryAt now db grantee rid) a ↔ FirstAllows (entryAt now db grantee rid))

/-- **Sharing one action** costs no other exactly where the grant that is overwritten spares it. -/
theorem sharing_iff (now : Val → Bool) (h : Ready n) (grantee rid : String) :
    (∀ (op : Sharing) (uuid time : String) (u : PUnit) (n' : Node), Unused n uuid →
      op.call now uuid time rid grantee n = .ok u n' →
      (SharesSafely now grantee rid op.action n n' ↔
        grantee ≠ "" ∧ Spares (entryAt now n.db grantee rid) (onlyFlag op.action))) ∧
    ∀ (by₁ by₂ uuid₁ uuid₂ uuid₃ uuid₄ time₁ time₂ time₃ time₄ : String) (u₁ u₂ u₃ u₄ : PUnit) (n₁ n₂ m₁ m₂ : Node),
      Unused n uuid₁ → grantRead now uuid₁ time₁ rid grantee by₁ n = .ok u₁ n₁ →
      Unused n₁ uuid₂ → grantInvoke now uuid₂ time₂ rid grantee by₂ n₁ = .ok u₂ n₂ →
      Unused n uuid₃ → grantInvoke now uuid₃ time₃ rid grantee by₂ n = .ok u₃ m₁ →
      Unused m₁ uuid₄ → grantRead now uuid₄ time₄ rid grantee by₁ m₁ = .ok u₄ m₂ →
      ((∀ a, MayDo now n₂.db grantee rid a ↔ MayDo now m₂.db grantee rid a) ↔
        grantee = "" ∨ Settles now n.db grantee rid) := by
  constructor
  · intro op uuid time u n' hfresh hc
    by_cases hu : grantee = ""
    · subst hu
      exact ⟨fun hs => absurd hs.2 not_mayDo_nobody, fun hs => absurd rfl hs.1⟩
    · obtain ⟨hstep, hr, hr', -⟩ := Sharing.call_step hu h hfresh hc
      unfold SharesSafely
      simp only [mayDo_iff hu hr, mayDo_iff hu hr']
      have hgiven : Allowed (entryAt now n'.db grantee rid) op.action ↔
          ∀ a, onlyFlag op.action a = true → Allowed (entryAt now n'.db grantee rid) a := by
        simp [onlyFlag]
      rw [hgiven, hstep.spares_iff]
      exact ⟨fun hs => ⟨hu, hs⟩, fun hs => hs.2⟩
  · intro by₁ by₂ uuid₁ uuid₂ uuid₃ uuid₄ time₁ time₂ time₃ time₄ u₁ u₂ u₃ u₄ n₁ n₂ m₁ m₂ hf₁ hc₁ hf₂ hc₂ hf₃ hc₃ hf₄ hc₄
    by_cases hu : grantee = ""
    · subst hu
      exact ⟨fun _ => .inl rfl, fun _ a => ⟨fun hm => absurd hm not_mayDo_nobody, fun hm => absurd hm not_mayDo_nobody⟩⟩
    · obtain ⟨hs₁, -, -, hn₁⟩ := Sharing.call_step (o := .read by₁) hu h hf₁ hc₁
      obtain ⟨hs₂, -, hr₂, -⟩ := Sharing.call_step (o := .invoke by₂) hu hn₁ hf₂ hc₂
      obtain ⟨hs₃, -, -, hm₁⟩ := Sharing.call_step (o := .invoke by₂) hu h hf₃ hc₃
      obtain ⟨hs₄, -, hr₄, -⟩ := Sharing.call_step (o := .read by₁) hu hm₁ hf₄ hc₄
      simp only [mayDo_iff hu hr₂, mayDo_iff hu hr₄]
      rw [hs₁.commute_iff hs₂ hs₃ hs₄]
      have hdiffer : ∀ a, onlyFlag .read a ≠ onlyFlag .invoke a ↔ a = .read ∨ a = .invoke := by
        intro a
        cases a <;> simp [onlyFlag]
      constructor
      · exact fun hall => .inr fun a ha => hall a ((hdiffer a).mpr ha)
      · rintro (hno | hall)
        · exact absurd hno hu
        · exact fun a ha => hall a ((hdiffer a).mp ha)

end Shares

/-! ### One resource, shared twice -/

def emptyNode : Node := hereNode

def shareAll : List (Sharing × String) → Option Node :=
  List.foldlM (fun n o =>
    match o.1.call (fun _ => true) o.2 "today" "r" "u" n with
    | .ok _ n' => some n'
    | .error _ _ => none) emptyNode

def mayAfter (ops : List (Sharing × String)) (a : Action) : Option Bool :=
  (shareAll ops).bind fun n => (effectiveFlags (fun _ => true) n.db "u" "r").toOption.map fun held => held a

theorem mayAfter_some {ops : List (Sharing × String)} (h : mayAfter ops a = some b) :
    ∃ n, shareAll ops = some n ∧ (MayDo (fun _ => true) n.db "u" "r" a ↔ b = true) := by
  obtain ⟨n, hn, h⟩ := Option.bind_eq_some_iff.mp h
  obtain ⟨held, hheld, rfl⟩ := Option.map_eq_some_iff.mp h
  refine ⟨n, hn, ?_, fun ha => ⟨held, ok_of_toOption hheld, ha⟩⟩
  rintro ⟨held', hheld', ha⟩
  rw [ok_of_toOption hheld] at hheld'
  cases hheld'
  exact ha

theorem sharing_first : ∃ u n', (Sharing.read "o").call (fun _ => true) "g1" "today" "r" "u" emptyNode = .ok u n' ∧
    SharesSafely (fun _ => true) "u" "r" .read emptyNode n' := by
  have hready : Ready emptyNode := ⟨rfl, documented_empty⟩
  have hnone : ∀ k, entryAt (fun _ => true) emptyNode.db "u" "r" k = none := fun _ => rfl
  have hreturns : (shareAll [(.read "o", "g1")]).isSome = true := by decide +kernel
  cases hc : (Sharing.read "o").call (fun _ => true) "g1" "today" "r" "u" emptyNode with
  | error e n' =>
    unfold shareAll at hreturns
    rw [List.foldlM_cons, hc] at hreturns
    cases hreturns
  | ok u n' =>
    refine ⟨u, n', rfl, ((sharing_iff _ hready "u" "r").1 _ _ _ _ _ ⟨by decide, rfl⟩ hc).mpr ⟨by decide, ?_, ?_, ?_⟩⟩
    · rintro a - ⟨k, e, ⟨he, -⟩, -⟩
      rw [hnone] at he
      cases he
    · intro a _ k e hf
      have he := hf.entry
      rw [hnone] at he
      cases he
    · intro k e hf
      have he := hf.entry
      rw [hnone] at he
      cases he

theorem sharing_costs : ∃ n₁ n₂ m₂, shareAll [(.invoke "o", "g1")] = some n₁ ∧
    shareAll [(.invoke "o", "g1"), (.read "o", "g2")] = some n₂ ∧
    shareAll [(.read "o", "g1"), (.invoke "o", "g2")] = some m₂ ∧
    MayDo (fun _ => true) n₁.db "u" "r" .invoke ∧ ¬MayDo (fun _ => true) n₂.db "u" "r" .invoke ∧
    MayDo (fun _ => true) m₂.db "u" "r" .invoke := by
  obtain ⟨h₁, h₂, h₃⟩ : mayAfter [(.invoke "o", "g1")] .invoke = some true ∧
      mayAfter [(.invoke "o", "g1"), (.read "o", "g2")] .invoke = some false ∧
        mayAfter [(.read "o", "g1"), (.invoke "o", "g2")] .invoke = some true := by decide +kernel
  obtain ⟨n₁, hn₁, hm₁⟩ := mayAfter_some h₁
  obtain ⟨n₂, hn₂, hm₂⟩ := mayAfter_some h₂
  obtain ⟨m₂, hn₃, hm₃⟩ := mayAfter_some h₃
  exact ⟨n₁, n₂, m₂, hn₁, hn₂, hn₃, hm₁.mpr rfl, fun hm => Bool.noConfusion (hm₂.mp hm), hm₃.mpr rfl⟩

end Mantle
