import Mathlib.Data.Rat.Defs
import Mathlib.Algebra.Order.Ring.Rat
import Mathlib.Data.String.Basic
import Mantle.Access.Keys

/-!
# Mantle.Access.Invalidate — which principals a change of the ledger reaches

`principalIdsFor` names the principals whose memo is dropped, and `memoTtl` caps an entry by the expiries behind it;
neither follows a change of an issuer's own grants.
-/

namespace Mantle

variable {d : Doc} {grantee kind : String} {gs : List GrantEntity} {m n : GrantEntity}

variable {b g : GrantEntity} {p : List GrantEntity}

/-! ### Times -/

/-- Times as texts. -/
structure Clock where
  /-- `datetime.fromisoformat`, as a moment; a time without a zone is UTC. -/
  fromIso : String → Option ℚ
  /-- `isoformat`, of a moment in UTC. -/
  isoformat : ℚ → String

def replaceZ (s : String) : String :=
  String.ofList (s.toList.flatMap fun c => if c = 'Z' then "+00:00".toList else [c])

def strip (s : String) : String :=
  String.ofList ((s.toList.dropWhile isPySpace).reverse.dropWhile isPySpace).reverse

namespace Clock

variable (C : Clock)

/-- The expiry lies ahead, as `_unexpired` decides it at a moment. -/
def ahead (t : ℚ) (v : Val) : Bool :=
  match v with
  | .str s =>
    match C.fromIso (replaceZ s) with
    | some e => decide (t < e)
    | none => decide (C.isoformat t < s)
  | v => decide (C.isoformat t < v.pyStr)

def secondsUntil (v : Val) (t : ℚ) : Option ℚ :=
  if v.truthy then
    match C.fromIso (replaceZ (strip v.pyStr)) with
    | some e => some (e - t)
    | none => some 0
  else none

/-- One grant of the loop of `_memo_ttl`. -/
def clamp (t ttl : ℚ) (g : GrantEntity) : ℚ :=
  match C.secondsUntil g.expiresAt t with
  | some remaining => if remaining < ttl then max remaining 0 else ttl
  | none => ttl

/-- `_memo_ttl`, with the requester's grants. -/
def memoTtl (ttlS : ℚ) (grants : List GrantEntity) (t : ℚ) : ℚ :=
  if ttlS ≤ 0 then ttlS else grants.foldl (C.clamp t) ttlS

theorem memoTtl_le_iff {ttlS c : ℚ} (hc : 0 < c) (grants : List GrantEntity) (t : ℚ) :
    C.memoTtl ttlS grants t ≤ c ↔
      ttlS ≤ c ∨ ∃ g ∈ grants, ∃ s, C.secondsUntil g.expiresAt t = some s ∧ s ≤ c := by
  have hfold : ∀ (gs : List GrantEntity) (ttl : ℚ), gs.foldl (C.clamp t) ttl ≤ c ↔
      ttl ≤ c ∨ ∃ g ∈ gs, ∃ s, C.secondsUntil g.expiresAt t = some s ∧ s ≤ c := by
    intro gs
    induction gs with
    | nil => simp
    | cons g gs ih =>
      intro ttl
      rw [List.foldl_cons, ih, List.exists_mem_cons_iff, ← or_assoc]
      refine or_congr_left ?_
      unfold clamp
      cases hs : C.secondsUntil g.expiresAt t with
      | none => simp
      | some s =>
        dsimp only
        split_ifs with hlt
        · simp only [sup_le_iff, hc.le, and_true, Option.some.injEq, exists_eq_left']
          exact ⟨fun h => .inr h, fun h => h.elim (fun h => hlt.le.trans h) id⟩
        · simp only [Option.some.injEq, exists_eq_left']
          exact ⟨fun h => .inl h, fun h => h.elim id fun h => (not_lt.mp hlt).trans h⟩
  unfold memoTtl
  split_ifs with h
  · exact ⟨fun h => .inl h, fun _ => h.trans hc.le⟩
  · exact hfold grants ttlS

end Clock

/-! ### Who is named -/

def granteeGroup : String := "group"
def granteeInvite : String := "invite"

section Names

variable (db : Store)

/-- The way up of `principal_ids_for`, from bundle to bundle.  An id that is no text names no row. -/
def bundleIds : ℕ → Val → List Val → Except AccessErr (Option (List Val))
  | 0, _, _ => .ok none
  | depth + 1, .str current, ids =>
    if current = "" || ids.any (·.eqStr current) then .ok none
    else
      match getGrantById db current with
      | .error e => .error e
      | .ok none => .ok none
      | .ok (some parent) =>
        if parent.granteeType.eqStr granteeGrant then bundleIds depth parent.granteeId (.str current :: ids)
        else .ok (some (.str current :: ids))
  | _ + 1, _, _ => .ok none

/-- `principal_ids_for`; `none` is everyone. -/
def principalIdsFor (g : GrantEntity) : Except AccessErr (Option (List Val)) :=
  if g.granteeType.eqStr granteeGrantKey then .ok (if g.id = "" then none else some [.str g.id])
  else if g.granteeType.eqStr granteeGrant then bundleIds db maxBundleDepth g.granteeId []
  else if g.granteeType.eqStr granteeGroup then .ok none
  else if g.granteeType.eqStr granteeInvite then .ok none
  else .ok (if g.granteeId.truthy then some [g.granteeId] else none)

def Names (answer : Except AccessErr (Option (List Val))) (p : String) : Prop :=
  answer = .ok none ∨ ∃ ids, answer = .ok (some ids) ∧ ∃ v ∈ ids, v.eqStr p = true

end Names

/-! ### What happens to a grant -/

/-- A grant is created, changed or revoked: its row is written.  A grant keeps its grantee, an invite's claim
apart. -/
structure Written (L L' : GrantLedger) (g : GrantEntity) : Prop where
  others : ∀ id, id ≠ g.id → L'.db.vertex.lookup id = L.db.vertex.lookup id
  stored : getGrantById L'.db g.id = .ok (some g)
  before : L.db.vertex.lookup g.id = none ∨
    ∃ g₀, getGrantById L.db g.id = .ok (some g₀) ∧ g₀.granteeType = g.granteeType ∧
      (g₀.granteeId = g.granteeId ∨ g.granteeType = .str granteeInvite)

/-- Grants reach their expiry: at the later moment they, and they alone, are in force no more. -/
structure Lapsed (C : Clock) (L : GrantLedger) (gs : List GrantEntity) (t e : ℚ) : Prop where
  later : t < e
  stored : ∀ g ∈ gs, getGrantById L.db g.id = .ok (some g)
  reached : ∀ g ∈ gs, (∀ s < e, C.ahead s g.expiresAt = true) ∧ C.ahead e g.expiresAt = false
  alone : ∀ id d, grantAt L.db id = some d → inForce (C.ahead e) d ≠ inForce (C.ahead t) d →
    ∃ g ∈ gs, g.id = id

inductive GrantTurn (C : Clock)
  | write (L L' : GrantLedger) (g : GrantEntity) (t : ℚ) (h : Written L L' g)
  | lapse (L : GrantLedger) (gs : List GrantEntity) (t e : ℚ) (h : Lapsed C L gs t e)

namespace GrantTurn

variable {C : Clock}

def before : GrantTurn C → GrantLedger
  | write L _ _ _ _ => L
  | lapse L _ _ _ _ => L

def after : GrantTurn C → GrantLedger
  | write _ L' _ _ _ => L'
  | lapse L _ _ _ _ => L

/-- What lies ahead, before. -/
def now : GrantTurn C → Val → Bool
  | write _ _ _ t _ => C.ahead t
  | lapse _ _ t _ _ => C.ahead t

/-- What lies ahead, after. -/
def now' : GrantTurn C → Val → Bool
  | write _ _ _ t _ => C.ahead t
  | lapse _ _ _ e _ => C.ahead e

def grants : GrantTurn C → List GrantEntity
  | write _ _ g _ _ => [g]
  | lapse _ gs _ _ _ => gs

def Changes (T : GrantTurn C) (p kind : String) : Prop :=
  (grantsFor T.now T.before.db p kind).toOption ≠ (grantsFor T.now' T.after.db p kind).toOption

/-- One of the grants names the principal. -/
def Covered (T : GrantTurn C) (p : String) : Prop :=
  ∃ g ∈ T.grants, Names (principalIdsFor T.after.db g) p

def Acting (T : GrantTurn C) (p kind : String) : Prop :=
  kind = granteeGrantKey → ∀ L ∈ [T.before, T.after], ∀ root, getGrantById L.db p = .ok (some root) →
    root.granteeType = .str granteeGrantKey

/-- On an expiry: an entry of the principal's memo, stored before, lives on after it. -/
def Outlived (ttlS : ℚ) (p kind : String) : GrantTurn C → Prop
  | write _ _ _ _ _ => True
  | lapse L _ _ e _ => ∃ s rs, s < e ∧ grantsFor (C.ahead s) L.db p kind = .ok rs ∧
      e < s + C.memoTtl ttlS rs s

/-- **Every principal the change reaches** is named, or its memo ends by the expiry. -/
def Reaches (ttlS : ℚ) (T : GrantTurn C) : Prop :=
  ∀ p kind, T.Acting p kind → T.Changes p kind → T.Covered p ∨ ¬T.Outlived ttlS p kind

end GrantTurn

/-! ### Ledgers that agree beside some rows -/

theorem sortedVertices_lt (db : Store) : (sortedVertices db).Pairwise fun a b => a.1 < b.1 :=
  Table.sort_lt db.vertex.toPairs_keys

theorem grantDocs_sorted (L : GrantLedger) (grantee : String) (pick : Doc → Bool) :
    ((grantDocsBy L.db grantee).filter pick).Pairwise fun d d' =>
      (d.get "id").pyStr < (d'.get "id").pyStr := by
  refine List.Pairwise.filter _ ?_
  unfold grantDocsBy
  split_ifs
  · exact .nil
  · rw [List.pairwise_map]
    refine List.Pairwise.filter _ ?_
    refine (sortedVertices_lt L.db).imp_of_mem ?_
    intro a b ha hb hlt
    rw [L.named a.1 a.2 (mem_sortedVertices.mp ha), L.named b.1 b.2 (mem_sortedVertices.mp hb)]
    exact hlt

theorem grantDocs_ext {L L' : GrantLedger} {g g' : String} {pick pick' : Doc → Bool}
    (h : ∀ d, d ∈ (grantDocsBy L.db g).filter pick ↔ d ∈ (grantDocsBy L'.db g').filter pick') :
    (grantDocsBy L.db g).filter pick = (grantDocsBy L'.db g').filter pick' := by
  have hnodup : ∀ {l : List Doc}, (l.Pairwise fun d d' => (d.get "id").pyStr < (d'.get "id").pyStr) → l.Nodup :=
    fun hl => hl.imp fun hlt he => absurd (he ▸ hlt) (lt_irrefl _)
  refine List.Perm.eq_of_pairwise ?_ (grantDocs_sorted L g pick) (grantDocs_sorted L' g' pick') ?_
  · intro a b _ _ hab hba
    exact absurd (hab.trans hba) (lt_irrefl _)
  · exact (List.perm_ext_iff_of_nodup (hnodup (grantDocs_sorted L g pick))
      (hnodup (grantDocs_sorted L' g' pick'))).mpr h

/-- The grants of two ledgers agree, and are in force alike, beside some rows that can be read in both. -/
structure Beside (ids : List String) (now : Val → Bool) (L : GrantLedger) (now' : Val → Bool) (L' : GrantLedger) :
    Prop where
  rows : ∀ id, id ∉ ids → grantAt L'.db id = grantAt L.db id
  force : ∀ id, id ∉ ids → ∀ d, grantAt L.db id = some d → inForce now' d = inForce now d
  readable : ∀ id ∈ ids, ∀ d, grantAt L.db id = some d ∨ grantAt L'.db id = some d →
    ∃ g, GrantEntity.ofDoc d = .ok g

section Beside

variable {ids : List String} {now now' : Val → Bool} {L L' : GrantLedger} {root : GrantEntity}

theorem Beside.symm (h : Beside ids now L now' L') : Beside ids now' L' now L := by
  refine ⟨fun id hid => (h.rows id hid).symm, ?_, fun id hid d hd => h.readable id hid d hd.symm⟩
  intro id hid d hd
  rw [h.rows id hid] at hd
  exact (h.force id hid d hd).symm

theorem grantAt_id {id : String} (h : grantAt L.db id = some d) : d.get "id" = .str id := by
  obtain ⟨r, hr, rfl⟩ := grantAt_row h
  exact L.named id r hr

theorem Beside.held (h : Beside ids now L now' L') (hd : d ∈ heldDocs now L.db grantee kind)
    (hid : (d.get "id").pyStr ∉ ids) :
    d ∈ heldDocs now' L'.db grantee kind := by
  obtain ⟨hne, ⟨id, hat, hg⟩, hforce, htype⟩ := mem_heldDocs.mp hd
  rw [grantAt_id hat] at hid
  refine mem_heldDocs.mpr ⟨hne, ⟨id, ?_, hg⟩, ?_, htype⟩
  · rw [h.rows id hid]
    exact hat
  · rw [h.force id hid d hat]
    exact hforce

theorem Beside.held_eq (h : Beside ids now L now' L')
    (hd : ∀ d ∈ heldDocs now L.db grantee kind, (d.get "id").pyStr ∉ ids)
    (hd' : ∀ d ∈ heldDocs now' L'.db grantee kind, (d.get "id").pyStr ∉ ids) :
    heldDocs now L.db grantee kind = heldDocs now' L'.db grantee kind := by
  refine grantDocs_ext fun d => ⟨fun hm => ?_, fun hm => ?_⟩
  · exact h.held hm (hd d hm)
  · exact h.symm.held hm (hd' d hm)

/-- No way down passes one of the rows. -/
def Avoids (ids : List String) (now : Val → Bool) (L : GrantLedger) (root : GrantEntity) : Prop :=
  ∀ p b, BundlePath now L.db root p b → ∀ n ∈ p, n.id ∉ ids

theorem Beside.listMembers (h : Beside ids now L now' L') (ha : Avoids ids now L root)
    (ha' : Avoids ids now' L' root) {n : GrantEntity} {p p' ms : List GrantEntity} {b b' : GrantEntity}
    (hp : BundlePath now L.db root (n :: p) b) (hp' : BundlePath now' L'.db root (n :: p') b')
    (hms : Mantle.listMembers now L.db n.id = .ok ms) : Mantle.listMembers now' L'.db n.id = .ok ms := by
  have hread : ∀ d ∈ heldDocs now L.db n.id granteeGrant, ∃ m, m ∈ ms ∧ GrantEntity.ofDoc d = .ok m := by
    intro d hd
    obtain ⟨m, hm⟩ := mapM_isOk.mp ⟨ms, hms⟩ d hd
    exact ⟨m, (mapM_ok hms m).mpr ⟨d, hd, hm⟩, hm⟩
  have hkeep : ∀ d ∈ heldDocs now L.db n.id granteeGrant, (d.get "id").pyStr ∉ ids := by
    intro d hd
    obtain ⟨m, hm, hdm⟩ := hread d hd
    have := ha _ _ (.kid hp hms hm) m (by simp)
    rw [(GrantEntity.ofDoc_ok hdm).2.1] at this
    exact this
  -- the rows beside can be read, so the members after can be listed
  have hread' : ∀ d ∈ heldDocs now' L'.db n.id granteeGrant, ∃ m, GrantEntity.ofDoc d = .ok m := by
    intro d hd
    by_cases hid : (d.get "id").pyStr ∈ ids
    · obtain ⟨-, ⟨id, hat, -⟩, -⟩ := mem_heldDocs.mp hd
      rw [grantAt_id hat] at hid
      exact h.readable id hid d (.inr hat)
    · obtain ⟨m, -, hm⟩ := hread d (h.symm.held hd hid)
      exact ⟨m, hm⟩
  obtain ⟨ms', hms'⟩ := mapM_isOk.mpr hread'
  have hkeep' : ∀ d ∈ heldDocs now' L'.db n.id granteeGrant, (d.get "id").pyStr ∉ ids := by
    intro d hd
    obtain ⟨m, hm⟩ := hread' d hd
    have := ha' _ _ (.kid hp' hms' ((mapM_ok hms' m).mpr ⟨d, hd, hm⟩)) m (by simp)
    rw [(GrantEntity.ofDoc_ok hm).2.1] at this
    exact this
  have heq := h.held_eq hkeep hkeep'
  unfold Mantle.listMembers at hms ⊢
  rw [← heq]
  exact hms

theorem Beside.path (h : Beside ids now L now' L') (ha : Avoids ids now L root) (ha' : Avoids ids now' L' root)
    (hp : BundlePath now L.db root p b) :
    BundlePath now' L'.db root p b := by
  induction hp with
  | root => exact .root
  | kid hp hk hm ih => exact .kid ih (h.listMembers ha ha' hp ih hk) hm

theorem Beside.bundleWalk (h : Beside ids now L now' L') (ha : Avoids ids now L root)
    (ha' : Avoids ids now' L' root) {found : List (GrantEntity × GrantEntity)}
    (hw : Mantle.bundleWalk now L.db root = .ok found) : Mantle.bundleWalk now' L'.db root = .ok found := by
  refine Levels.expand_congr (P := fun n => ∃ p b, BundlePath now L.db root (n :: p) b) ?_ ⟨[], root, .root⟩ hw
  rintro n ms ⟨p, b, hp⟩ hk
  exact ⟨h.listMembers ha ha' hp (h.path ha ha' hp) hk, fun m hm => ⟨_, _, .kid hp hk hm⟩⟩

/-- The issuers of what the key holds hold the same after as before. -/
def Steady (now : Val → Bool) (L : GrantLedger) (now' : Val → Bool) (L' : GrantLedger) (root : GrantEntity) : Prop :=
  ∀ p b rid x, KeyHolds now L.db root p b → b.resource = some rid → b.isAllow = true → b.grantedBy ≠ "" →
    b.flag x = true →
      (IssuerHolds now L.db (fun _ => false) b.grantedBy rid x ↔
        IssuerHolds now' L'.db (fun _ => false) b.grantedBy rid x)

theorem Beside.effectiveFlags_isOk (h : Beside ids now L now' L') {user rid : String}
    (hok : ∃ held, effectiveFlags now L.db user rid = .ok held) :
    ∃ held, effectiveFlags now' L'.db user rid = .ok held := by
  rw [Mantle.effectiveFlags_isOk] at hok ⊢
  refine hok.imp_right fun hread d hd => ?_
  obtain ⟨hne, ⟨id, hat, hg⟩, hforce, hres⟩ := mem_resourceDocs.mp hd
  by_cases hid : id ∈ ids
  · exact h.readable id hid d (.inr hat)
  · rw [h.rows id hid] at hat
    rw [h.force id hid d hat] at hforce
    exact hread d (mem_resourceDocs.mpr ⟨hne, ⟨id, hat, hg⟩, hforce, hres⟩)

theorem Beside.asHeldNow_isOk (h : Beside ids now L now' L') (hok : ∃ g, asHeldNow now L.db b = .ok g) :
    ∃ g, asHeldNow now' L'.db b = .ok g := by
  rw [Mantle.asHeldNow_isOk] at hok ⊢
  intro rid hrid hby hallow
  exact h.effectiveFlags_isOk (hok rid hrid hby hallow)

theorem Beside.asHeldNow (h : Beside ids now L now' L')
    (hs : ∀ rid x, b.resource = some rid → b.isAllow = true → b.grantedBy ≠ "" → b.flag x = true →
      (IssuerHolds now L.db (fun _ => false) b.grantedBy rid x ↔
        IssuerHolds now' L'.db (fun _ => false) b.grantedBy rid x)) (hg : Mantle.asHeldNow now L.db b = .ok g) :
    Mantle.asHeldNow now' L'.db b = .ok g := by
  obtain ⟨g', hg'⟩ := h.asHeldNow_isOk ⟨g, hg⟩
  unfold Mantle.asHeldNow at hg hg' ⊢
  cases hr : b.resource with
  | none =>
    rw [hr] at hg
    exact hg
  | some rid =>
    rw [hr] at hg hg'
    dsimp only at hg hg' ⊢
    by_cases hby : (b.grantedBy = "" || !b.isAllow) = true
    · rw [if_pos hby] at hg ⊢
      exact hg
    · rw [if_neg hby] at hg hg' ⊢
      simp only [Bool.or_eq_true, decide_eq_true_eq, Bool.not_eq_true', not_or, Bool.not_eq_false] at hby
      cases hf : effectiveFlags now L.db b.grantedBy rid with
      | error e =>
        rw [hf] at hg
        cases hg
      | ok held =>
        cases hf' : effectiveFlags now' L'.db b.grantedBy rid with
        | error e =>
          rw [hf'] at hg'
          cases hg'
        | ok held' =>
          rw [hf] at hg
          rw [← hg]
          have hbits : (fun a => b.flag a && held' a) = fun a => b.flag a && held a := by
            funext a
            cases hb : b.flag a with
            | false => rfl
            | true =>
              have := hs rid a hr hby.2 hby.1 hb
              rw [← effectiveFlags_iff hf a, ← effectiveFlags_iff hf' a] at this
              rw [Bool.true_and, Bool.true_and, Bool.eq_iff_iff, this]
          show Except.ok { b with flag := fun a => b.flag a && held' a } =
            Except.ok { b with flag := fun a => b.flag a && held a }
          rw [hbits]

theorem mapM_congr_ok {α β ε : Type} {f f' : α → Except ε β} :
    ∀ {xs : List α} {ys : List β}, (∀ x ∈ xs, ∀ y, f x = .ok y → f' x = .ok y) → xs.mapM f = .ok ys →
      xs.mapM f' = .ok ys
  | [], ys, _, h => by
    rw [List.mapM_nil] at h ⊢
    exact h
  | x :: xs, ys, hf, h => by
    rw [List.mapM_cons] at h ⊢
    obtain ⟨y, hx, h⟩ := bind_ok h
    rw [hf x (by simp) y hx]
    obtain ⟨ys', hxs, h⟩ := bind_ok h
    rw [mapM_congr_ok (fun x' hx' => hf x' (by simp [hx'])) hxs]
    exact h

/-- **A key beside the change.** -/
theorem Beside.keyResolve (h : Beside ids now L now' L') (ha : Avoids ids now L root) (ha' : Avoids ids now' L' root)
    (hroot : Stored L.db root) (hkey : root.granteeType = .str granteeGrantKey) (hs : Steady now L now' L' root)
    (hgs : Mantle.keyResolve now L.db root = .ok gs) : Mantle.keyResolve now' L'.db root = .ok gs := by
  unfold Mantle.keyResolve at hgs ⊢
  cases hw : Mantle.bundleWalk now L.db root with
  | error e =>
    rw [hw] at hgs
    cases hgs
  | ok found =>
    rw [hw] at hgs
    rw [h.bundleWalk ha ha' hw]
    refine mapM_congr_ok ?_ hgs
    rintro ⟨m, b⟩ he g hg
    obtain ⟨p, hp, hd⟩ := (Levels.mem_expand_iff (bundle_unique L.named hroot hkey) hw m b).mp
      (List.mem_of_mem_filter he)
    exact h.asHeldNow (fun rid x => hs (m :: p) b rid x ⟨hp, by simpa using hd⟩) hg

theorem Beside.keyResolve_isOk (h : Beside ids now L now' L') (ha : Avoids ids now L root)
    (ha' : Avoids ids now' L' root) (hgs : ∃ gs, Mantle.keyResolve now L.db root = .ok gs) :
    ∃ gs, Mantle.keyResolve now' L'.db root = .ok gs := by
  obtain ⟨gs, hgs⟩ := hgs
  unfold Mantle.keyResolve at hgs ⊢
  cases hw : Mantle.bundleWalk now L.db root with
  | error e =>
    rw [hw] at hgs
    cases hgs
  | ok found =>
    rw [hw] at hgs
    rw [h.bundleWalk ha ha' hw]
    exact mapM_isOk.mpr fun e he => h.asHeldNow_isOk (mapM_isOk.mp ⟨gs, hgs⟩ e he)

theorem path_value_id (h : BundlePath now L.db root (m :: p) b) :
    b.id = m.id := by
  cases h <;> rfl

theorem Beside.keyResolve_ne (h : Beside ids now L now' L') (ha : Avoids ids now L root)
    (ha' : Avoids ids now' L' root) (hroot : Stored L.db root) (hroot' : Stored L'.db root)
    (hkey : root.granteeType = .str granteeGrantKey) (hs : ¬Steady now L now' L' root)
    (hgs : Mantle.keyResolve now L.db root = .ok gs) : Mantle.keyResolve now' L'.db root ≠ .ok gs := by
  intro hgs'
  refine hs fun p b rid x hb hres hallow hby hflag => ?_
  cases p with
  | nil => cases hb.path
  | cons m p =>
    have hb' : KeyHolds now' L'.db root (m :: p) b := ⟨h.path ha ha' hb.path, hb.depth⟩
    have hsome : b.resource.isSome = true := by
      rw [hres]
      rfl
    obtain ⟨g, hg⟩ := ((Mantle.keyResolve_isOk L.named hroot hkey).mp ⟨gs, hgs⟩).2 _ b hb hsome
    obtain ⟨g', hg'⟩ := ((Mantle.keyResolve_isOk L'.named hroot' hkey).mp ⟨gs, hgs'⟩).2 _ b hb' hsome
    -- the grant of this id is one grant of the list
    have hmem := (mem_keyResolve L.named hroot hkey hgs g).mpr ⟨_, b, hb, hsome, hg⟩
    obtain ⟨p₂, b₂, hb₂, -, hg₂⟩ := (mem_keyResolve L'.named hroot' hkey hgs' g).mp hmem
    have hsame : g = g' := by
      cases p₂ with
      | nil => cases hb₂.path
      | cons m₂ p₂ =>
        have hid : m.id = m₂.id := by
          rw [← path_value_id hb.path, ← path_value_id hb₂.path, ← (asHeldNow_fields hg).2.2.1,
            ← (asHeldNow_fields hg₂).2.2.1]
        have heq := bundle_unique L'.named hroot' hkey _ _ _ _ _ _ hb'.path hb₂.path hid
        rw [← heq] at hb₂
        rw [hb₂.path.value_unique hb'.path, hg'] at hg₂
        exact (Except.ok.inj hg₂).symm
    have hbefore := asHeldNow_allow hg hres hallow x
    have hafter := asHeldNow_allow hg' hres hallow x
    rw [hsame, hafter] at hbefore
    simpa only [hflag, true_and, Backed, hby, false_or] using hbefore.symm

end Beside

/-! ### The way up -/

section Up

variable {now : Val → Bool} {L L' : GrantLedger} {root : GrantEntity}

def GranteesKept (L L' : GrantLedger) : Prop :=
  ∀ g, Stored L.db g → getGrantById L'.db g.id = .ok none ∨
    ∃ g', getGrantById L'.db g.id = .ok (some g') ∧ g'.granteeType = g.granteeType ∧ g'.granteeId = g.granteeId

theorem getGrantById_stored (h : Stored L.db g) :
    getGrantById L.db g.id = .ok none ∨ getGrantById L.db g.id = .ok (some g) := by
  obtain ⟨r, hr, hg⟩ := h
  unfold getGrantById docOf
  rw [hr, Option.bind_some]
  by_cases hempty : r.doc.val.isEmpty = true
  · rw [if_pos hempty]
    exact .inl rfl
  · rw [if_neg hempty]
    dsimp only
    split_ifs
    · rw [hg]
      exact .inr rfl
    · exact .inl rfl

theorem granteesKept_refl (L : GrantLedger) : GranteesKept L L := fun g hg =>
  (getGrantById_stored hg).imp_right fun h => ⟨g, h, rfl, rfl⟩

theorem path_stored_of_mem (hroot : Stored L.db root) (h : BundlePath now L.db root p b) (hn : n ∈ p) :
    Stored L.db n := by
  induction h with
  | root =>
    rw [List.mem_singleton.mp hn]
    exact hroot
  | kid _ hk hm ih =>
    rcases List.mem_cons.mp hn with rfl | hn
    · exact (member_stored L.named hk hm).1
    · exact ih hn

theorem bundleIds_names (hkeep : GranteesKept L L') (hroot : Stored L.db root)
    (hkey : root.granteeType = .str granteeGrantKey) (hp : BundlePath now L.db root p b) :
    ∀ (m : GrantEntity) (q : List GrantEntity), p = m :: q →
      ∀ depth ids, Names (bundleIds L'.db depth (.str m.id) ids) root.id := by
  induction hp with
  | root =>
    rintro m q hmq depth ids
    cases hmq
    cases depth with
    | zero => exact .inl rfl
    | succ depth =>
      unfold bundleIds
      split_ifs
      · exact .inl rfl
      · rcases hkeep root hroot with hnone | ⟨g', hg', htype, -⟩
        · rw [hnone]
          exact .inl rfl
        · rw [hg']
          dsimp only
          rw [htype, hkey, if_neg (by decide)]
          exact .inr ⟨_, rfl, .str root.id, by simp, eqStr_iff.mpr rfl⟩
  | @kid n m₁ p ms c hp hk hm ih =>
    rintro m q hmq depth ids
    cases hmq
    obtain ⟨hst, htype₀, hid₀⟩ := member_stored L.named hk hm
    cases depth with
    | zero => exact .inl rfl
    | succ depth =>
      unfold bundleIds
      split_ifs
      · exact .inl rfl
      · rcases hkeep m₁ hst with hnone | ⟨g', hg', htype, hid⟩
        · rw [hnone]
          exact .inl rfl
        · rw [hg']
          dsimp only
          rw [htype, htype₀, if_pos (by decide), hid, hid₀]
          exact ih n p rfl depth _

theorem principalIdsFor_names (hkeep : GranteesKept L L') (hroot : Stored L.db root)
    (hkey : root.granteeType = .str granteeGrantKey) (hp : BundlePath now L.db root p b) (hm : m ∈ p)
    (hid : g.id = m.id) (htype : g.granteeType = m.granteeType) (hgrantee : g.granteeId = m.granteeId) :
    Names (principalIdsFor L'.db g) root.id := by
  induction hp with
  | root =>
    rw [List.mem_singleton.mp hm] at hid htype
    unfold principalIdsFor
    rw [htype, hkey, if_pos (by decide), hid]
    split_ifs
    · exact .inl rfl
    · exact .inr ⟨_, rfl, .str root.id, by simp, eqStr_iff.mpr rfl⟩
  | @kid n m₁ p ms c hp hk hm₁ ih =>
    rcases List.mem_cons.mp hm with rfl | hm
    · obtain ⟨-, htype₀, hid₀⟩ := member_stored L.named hk hm₁
      unfold principalIdsFor
      rw [htype, htype₀, if_neg (by decide), if_pos (by decide), hgrantee, hid₀]
      exact bundleIds_names hkeep hroot hkey hp n p rfl _ _
    · exact ih hm

end Up

/-! ### What a change leaves alone -/

namespace GrantTurn

variable {L : GrantLedger} {n : GrantEntity}

variable {g root : GrantEntity}

variable {C : Clock} {T : GrantTurn C} {p : String}

def ids (T : GrantTurn C) : List String := T.grants.map GrantEntity.id

theorem stored_after (hg : g ∈ T.grants) : getGrantById T.after.db g.id = .ok (some g) := by
  cases T with
  | write L L' g₀ t h =>
    rw [List.mem_singleton.mp hg]
    exact h.stored
  | lapse L gs t e h => exact h.stored g hg

theorem grantee_before (hp : ¬T.Covered p) (hg : g ∈ T.grants) (hn : Stored T.before.db n) (hid : g.id = n.id) :
    g.granteeType = n.granteeType ∧ g.granteeId = n.granteeId := by
  cases T with
  | write L L' g₀ t h =>
    obtain rfl := List.mem_singleton.mp hg
    rcases h.before with hnone | ⟨g₁, hg₁, htype, hgrantee⟩
    · obtain ⟨r, hr, -⟩ := hn
      rw [← hid] at hr
      exact absurd (hnone.symm.trans hr) (by simp)
    · obtain ⟨hst, hid₁⟩ := stored_of_getGrantById L.named hg₁
      obtain rfl := hst.unique hn (hid₁.trans hid)
      refine ⟨htype.symm, ?_⟩
      rcases hgrantee with hgrantee | hinvite
      · exact hgrantee.symm
      · refine absurd ⟨g, by simp [grants], .inl ?_⟩ hp
        unfold principalIdsFor
        rw [hinvite]
        rfl
  | lapse L gs t e h =>
    obtain ⟨hst, -⟩ := stored_of_getGrantById L.named (h.stored g hg)
    rw [hst.unique hn hid]
    exact ⟨rfl, rfl⟩

theorem grantee_after (hg : g ∈ T.grants) (hn : Stored T.after.db n) (hid : g.id = n.id) :
    g = n :=
  (stored_of_getGrantById T.after.named (stored_after hg)).1.unique hn hid

theorem getGrantById_beside (hid : p ∉ T.ids) : getGrantById T.after.db p = getGrantById T.before.db p := by
  cases T with
  | write L L' g t h =>
    have hne : p ≠ g.id := by simpa [ids, grants] using hid
    show getGrantById L'.db p = getGrantById L.db p
    unfold getGrantById docOf
    rw [h.others p hne]
  | lapse L gs t e h => rfl

theorem granteesKept (hp : ¬T.Covered p) : GranteesKept T.before T.after := by
  intro n hn
  by_cases hid : n.id ∈ T.ids
  · obtain ⟨g, hg, hgid⟩ := List.mem_map.mp hid
    obtain ⟨htype, hgrantee⟩ := grantee_before hp hg hn hgid
    rw [← hgid]
    exact .inr ⟨g, stored_after hg, htype, hgrantee⟩
  · rw [getGrantById_beside hid]
    exact granteesKept_refl T.before n hn

theorem getGrantById_readable {id : String} (h : getGrantById L.db id = .ok (some g)) {d : Doc}
    (hd : grantAt L.db id = some d) :
    GrantEntity.ofDoc d = .ok g := by
  obtain ⟨⟨r, hr, hg⟩, hid⟩ := stored_of_getGrantById L.named h
  obtain ⟨r', hr', rfl⟩ := grantAt_row hd
  rw [hid, hr'] at hr
  cases hr
  exact hg

theorem beside (T : GrantTurn C) : Beside T.ids T.now T.before T.now' T.after := by
  cases T with
  | write L L' g t h =>
    refine ⟨?_, fun _ _ _ _ => rfl, ?_⟩
    · intro id hid
      have hne : id ≠ g.id := by simpa [ids, grants] using hid
      show grantAt L'.db id = grantAt L.db id
      unfold grantAt
      rw [h.others id hne]
    · intro id hid d hd
      obtain rfl : id = g.id := by simpa [ids, grants] using hid
      rcases hd with hd | hd
      · rcases h.before with hnone | ⟨g₀, hg₀, -⟩
        · obtain ⟨r, hr, -⟩ := grantAt_row hd
          exact absurd (hnone.symm.trans hr) (by simp)
        · exact ⟨g₀, getGrantById_readable hg₀ hd⟩
      · exact ⟨g, getGrantById_readable h.stored hd⟩
  | lapse L gs t e h =>
    refine ⟨fun _ _ => rfl, ?_, ?_⟩
    · intro id hid d hd
      by_contra hne
      obtain ⟨g, hg, rfl⟩ := h.alone id d hd hne
      exact hid (List.mem_map_of_mem hg)
    · intro id hid d hd
      obtain ⟨g, hg, rfl⟩ := List.mem_map.mp hid
      exact ⟨g, getGrantById_readable (h.stored g hg) (hd.elim id id)⟩

theorem avoids_before (hp : ¬T.Covered p) (hroot : Stored T.before.db root) (hid : root.id = p)
    (hkey : root.granteeType = .str granteeGrantKey) :
    Avoids T.ids T.now T.before root := by
  intro q b hq n hn hin
  obtain ⟨g, hg, hgid⟩ := List.mem_map.mp hin
  obtain ⟨htype, hgrantee⟩ := grantee_before hp hg (path_stored_of_mem hroot hq hn) hgid
  refine hp ⟨g, hg, ?_⟩
  rw [← hid]
  exact principalIdsFor_names (granteesKept hp) hroot hkey hq hn hgid htype hgrantee

theorem avoids_after (hp : ¬T.Covered p) (hroot : Stored T.after.db root) (hid : root.id = p)
    (hkey : root.granteeType = .str granteeGrantKey) :
    Avoids T.ids T.now' T.after root := by
  intro q b hq n hn hin
  obtain ⟨g, hg, hgid⟩ := List.mem_map.mp hin
  have hgn := grantee_after hg (path_stored_of_mem hroot hq hn) hgid
  refine hp ⟨g, hg, ?_⟩
  rw [← hid]
  exact principalIdsFor_names (granteesKept_refl _) hroot hkey hq hn hgid (by rw [hgn]) (by rw [hgn])

theorem covered_user {kind : String} (hkind : kind ≠ granteeGrantKey) (hc : T.Changes p kind) : T.Covered p := by
  by_contra hp
  -- a grant a user holds names the user
  have hnames : ∀ {g : GrantEntity}, g ∈ T.grants → p ≠ "" → g.granteeType = .str "user" →
      g.granteeId = .str p → False := by
    intro g hg hne htype hgrantee
    refine hp ⟨g, hg, .inr ⟨[.str p], ?_, .str p, by simp, eqStr_iff.mpr rfl⟩⟩
    unfold principalIdsFor
    rw [htype, hgrantee, if_neg (by decide), if_neg (by decide), if_neg (by decide), if_neg (by decide),
      if_pos (by simp [Val.truthy, hne])]
  have hentity : ∀ {L : GrantLedger} {now : Val → Bool} {d : Doc}, d ∈ heldDocs now L.db p "user" →
      ∀ {n : GrantEntity}, GrantEntity.ofDoc d = .ok n → p ≠ "" ∧ Stored L.db n ∧
        n.granteeType = .str "user" ∧ n.granteeId = .str p := by
    intro L now d hd n hn
    obtain ⟨hne, ⟨id, hat, hgrantee⟩, -, htype⟩ := mem_heldDocs.mp hd
    obtain ⟨-, hnid, hnt, hng⟩ := GrantEntity.ofDoc_ok hn
    refine ⟨hne, ?_, hnt.trans (find_of_eqStr htype), hng.trans (find_of_eqStr hgrantee)⟩
    obtain ⟨r, hr, rfl⟩ := grantAt_row hat
    refine ⟨r, ?_, hn⟩
    rw [hnid, L.named id r hr]
    exact hr
  have hb := T.beside
  refine hc ?_
  unfold grantsFor
  rw [if_neg hkind, if_neg hkind, hb.held_eq]
  · intro d hd hin
    obtain ⟨-, ⟨id, hat, -⟩, -⟩ := mem_heldDocs.mp hd
    rw [grantAt_id hat] at hin
    obtain ⟨n, hn⟩ := hb.readable id hin d (.inl hat)
    obtain ⟨hne, hst, htype, hgrantee⟩ := hentity hd hn
    obtain ⟨g, hg, hgid⟩ := List.mem_map.mp hin
    have hnid : g.id = n.id := by
      rw [(GrantEntity.ofDoc_ok hn).2.1, grantAt_id hat]
      exact hgid
    obtain ⟨ht, hi⟩ := grantee_before hp hg hst hnid
    exact hnames hg hne (ht.trans htype) (hi.trans hgrantee)
  · intro d hd hin
    obtain ⟨-, ⟨id, hat, -⟩, -⟩ := mem_heldDocs.mp hd
    rw [grantAt_id hat] at hin
    obtain ⟨n, hn⟩ := hb.readable id hin d (.inr hat)
    obtain ⟨hne, hst, htype, hgrantee⟩ := hentity hd hn
    obtain ⟨g, hg, hgid⟩ := List.mem_map.mp hin
    have hnid : g.id = n.id := by
      rw [(GrantEntity.ofDoc_ok hn).2.1, grantAt_id hat]
      exact hgid
    rw [← grantee_after hg hst hnid] at htype hgrantee
    exact hnames hg hne htype hgrantee

/-- On an expiry: at every moment before, the memo's lifetime or some grant of the key itself ends by it. -/
def Capped (ttlS : ℚ) (root : GrantEntity) : GrantTurn C → Prop
  | write _ _ _ _ _ => False
  | lapse L _ _ e _ => ∀ s < e, (∃ gs, keyResolve (C.ahead s) L.db root = .ok gs) → ttlS ≤ e - s ∨
      ∃ q b r, KeyHolds (C.ahead s) L.db root q b ∧ b.resource.isSome = true ∧
        C.secondsUntil b.expiresAt s = some r ∧ r ≤ e - s

theorem grantsFor_key {now : Val → Bool} (hroot : getGrantById L.db p = .ok (some root))
    (hactive : root.isActive = true) :
    grantsFor now L.db p granteeGrantKey = keyResolve now L.db root := by
  unfold grantsFor
  rw [if_pos rfl, hroot]
  exact if_pos hactive

theorem not_outlived_iff {ttlS : ℚ} (hroot : getGrantById T.before.db p = .ok (some root))
    (hkey : root.granteeType = .str granteeGrantKey) (hactive : root.isActive = true) :
    ¬T.Outlived ttlS p granteeGrantKey ↔ T.Capped ttlS root := by
  cases T with
  | write L L' g t h => exact ⟨fun h => h trivial, fun h => h.elim⟩
  | lapse L gs t e h =>
    have hroot : getGrantById L.db p = .ok (some root) := hroot
    have hst := (stored_of_getGrantById L.named hroot).1
    have hcap : ∀ {s : ℚ} {rs : List GrantEntity}, s < e → keyResolve (C.ahead s) L.db root = .ok rs →
        (¬e < s + C.memoTtl ttlS rs s ↔ ttlS ≤ e - s ∨
          ∃ q b r, KeyHolds (C.ahead s) L.db root q b ∧ b.resource.isSome = true ∧
            C.secondsUntil b.expiresAt s = some r ∧ r ≤ e - s) := by
      intro s rs hs hrs
      rw [not_lt, ← le_sub_iff_add_le', C.memoTtl_le_iff (sub_pos.mpr hs)]
      refine or_congr_right ⟨?_, ?_⟩
      · rintro ⟨g, hg, r, hr, hle⟩
        obtain ⟨q, b, hb, hsome, hgb⟩ := (mem_keyResolve L.named hst hkey hrs g).mp hg
        rw [asHeldNow_expiresAt hgb] at hr
        exact ⟨q, b, r, hb, hsome, hr, hle⟩
      · rintro ⟨q, b, r, hb, hsome, hr, hle⟩
        obtain ⟨g, hgb⟩ := ((keyResolve_isOk L.named hst hkey).mp ⟨rs, hrs⟩).2 q b hb hsome
        refine ⟨g, (mem_keyResolve L.named hst hkey hrs g).mpr ⟨q, b, hb, hsome, hgb⟩, r, ?_, hle⟩
        rw [asHeldNow_expiresAt hgb]
        exact hr
    constructor
    · rintro hno s hs ⟨rs, hrs⟩
      refine (hcap hs hrs).mp fun hlt => hno ⟨s, rs, hs, ?_, hlt⟩
      rw [grantsFor_key hroot hactive]
      exact hrs
    · rintro hcapped ⟨s, rs, hs, hrs, hlt⟩
      rw [grantsFor_key hroot hactive] at hrs
      exact (hcap hs hrs).mpr (hcapped s hs ⟨rs, hrs⟩) hlt

/-- **Invalidation reaches every principal a change reaches**, exactly when the issuers of every active key it does not
name hold what they held, or its memo is capped. -/
theorem invalidation_reaches_iff (ttlS : ℚ) (T : GrantTurn C) : T.Reaches ttlS ↔
    ∀ p root, getGrantById T.before.db p = .ok (some root) → root.granteeType = .str granteeGrantKey →
      root.isActive = true → (∃ gs, keyResolve T.now T.before.db root = .ok gs) → ¬T.Covered p →
        Steady T.now T.before T.now' T.after root ∨ T.Capped ttlS root := by
  have hb := T.beside
  constructor
  · intro hreach p root hroot hkey hactive ⟨gs, hgs⟩ hp
    obtain ⟨hst, hid⟩ := stored_of_getGrantById T.before.named hroot
    have hnot : p ∉ T.ids := fun hin => avoids_before hp hst hid hkey _ _ .root root (by simp) (hid.symm ▸ hin)
    have hroot' : getGrantById T.after.db p = .ok (some root) := (getGrantById_beside hnot).trans hroot
    have hst' := (stored_of_getGrantById T.after.named hroot').1
    by_cases hsteady : Steady T.now T.before T.now' T.after root
    · exact .inl hsteady
    · refine .inr ((not_outlived_iff hroot hkey hactive).mp ?_)
      have hne := hb.keyResolve_ne (avoids_before hp hst hid hkey) (avoids_after hp hst' hid hkey) hst hst' hkey
        hsteady hgs
      refine (hreach p granteeGrantKey ?_ ?_).resolve_left hp
      · rintro - L hL root₁ hroot₁
        rcases List.mem_cons.mp hL with rfl | hL
        · rw [hroot] at hroot₁
          cases hroot₁
          exact hkey
        · obtain rfl := List.mem_singleton.mp hL
          rw [hroot'] at hroot₁
          cases hroot₁
          exact hkey
      · unfold Changes
        rw [grantsFor_key hroot hactive, grantsFor_key hroot' hactive, hgs]
        intro heq
        cases hgs' : keyResolve T.now' T.after.db root with
        | error e =>
          rw [hgs'] at heq
          cases heq
        | ok gs' =>
          rw [hgs'] at heq
          cases heq
          exact hne hgs'
  · intro hcond p kind hact hc
    by_contra hno
    obtain ⟨hp, hout⟩ := not_or.mp hno
    by_cases hkind : kind = granteeGrantKey
    · subst hkind
      have hnot : p ∉ T.ids := by
        intro hin
        obtain ⟨g, hg, hgid⟩ := List.mem_map.mp hin
        have hroot := stored_after hg
        rw [hgid] at hroot
        have hkey := hact rfl T.after (by simp) g hroot
        have hst := (stored_of_getGrantById T.after.named hroot).1
        exact avoids_after hp hst hgid hkey _ _ .root g (by simp) (hgid.symm ▸ hin)
      have hsame := getGrantById_beside hnot
      cases hroot : getGrantById T.before.db p with
      | error e =>
        refine hc ?_
        unfold grantsFor
        rw [hsame, hroot]
        rfl
      | ok found =>
        cases found with
        | none =>
          refine hc ?_
          unfold grantsFor
          rw [hsame, hroot]
          rfl
        | some root =>
          have hroot' : getGrantById T.after.db p = .ok (some root) := hsame.trans hroot
          have hkey := hact rfl T.before (by simp) root hroot
          obtain ⟨hst, hid⟩ := stored_of_getGrantById T.before.named hroot
          have hst' := (stored_of_getGrantById T.after.named hroot').1
          have ha := avoids_before hp hst hid hkey
          have ha' := avoids_after hp hst' hid hkey
          cases hactive : root.isActive with
          | false =>
            refine hc ?_
            unfold grantsFor
            rw [hsame, hroot]
            dsimp only
            rw [if_pos rfl, if_pos rfl, hactive]
            rfl
          | true =>
            unfold Changes at hc
            rw [grantsFor_key hroot hactive, grantsFor_key hroot' hactive] at hc
            cases hgs : keyResolve T.now T.before.db root with
            | ok gs =>
              rcases hcond p root hroot hkey hactive ⟨gs, hgs⟩ hp with hsteady | hcap
              · refine hc ?_
                rw [hgs, hb.keyResolve ha ha' hst hkey hsteady hgs]
              · exact hout ((not_outlived_iff hroot hkey hactive).mpr hcap)
            | error e =>
              cases hgs' : keyResolve T.now' T.after.db root with
              | error e' =>
                refine hc ?_
                rw [hgs, hgs']
                rfl
              | ok gs' =>
                obtain ⟨gs, hgs₁⟩ := hb.symm.keyResolve_isOk ha' ha ⟨gs', hgs'⟩
                rw [hgs] at hgs₁
                cases hgs₁
    · exact hp (covered_user hkind hc)

end GrantTurn

/-! ### An issuer's grant is revoked -/

def revokedLedger : GrantLedger := bundledLedger.setField "g" "state" (.str "revoked") (by decide)

theorem revokedLedger_written : ∃ g, Written bundledLedger revokedLedger g ∧
    ¬Names (principalIdsFor revokedLedger.db g) "k" := by
  have hrow : (bundledLedger.db.vertex.lookup "g").isSome = true := by decide +kernel
  obtain ⟨r, hr⟩ := Option.isSome_iff_exists.mp hrow
  have hafter : ((getGrantById revokedLedger.db "g").toOption.bind id).any (fun g =>
      g.granteeType.eqStr "user" && g.granteeId.eqStr "u" && decide (g.id = "g")) = true := by decide +kernel
  have hbefore : ((getGrantById bundledLedger.db "g").toOption.bind id).any (fun g =>
      g.granteeType.eqStr "user" && g.granteeId.eqStr "u") = true := by decide +kernel
  obtain ⟨g, ho, hafter⟩ := (Option.any_eq_true _ _).mp hafter
  obtain ⟨o, hg, rfl⟩ := Option.bind_eq_some_iff.mp ho
  obtain ⟨g₀, ho₀, hbefore⟩ := (Option.any_eq_true _ _).mp hbefore
  obtain ⟨o₀, hg₀, rfl⟩ := Option.bind_eq_some_iff.mp ho₀
  replace hg := ok_of_toOption hg
  replace hg₀ := ok_of_toOption hg₀
  simp only [Bool.and_eq_true, decide_eq_true_eq] at hafter
  obtain ⟨⟨htype, hgrantee⟩, hid⟩ := hafter
  rw [Bool.and_eq_true] at hbefore
  refine ⟨g, ⟨?_, ?_, ?_⟩, ?_⟩
  · intro id hne
    rw [hid] at hne
    exact (setField_lookup hr id).trans (if_neg hne)
  · rw [hid]
    exact hg
  · rw [hid]
    refine .inr ⟨g₀, hg₀, ?_, .inl ?_⟩
    · rw [eqStr_iff.mp htype, eqStr_iff.mp hbefore.1]
    · rw [eqStr_iff.mp hgrantee, eqStr_iff.mp hbefore.2]
  · have hids : principalIdsFor revokedLedger.db g = .ok (some [.str "u"]) := by
      unfold principalIdsFor
      rw [eqStr_iff.mp htype, eqStr_iff.mp hgrantee]
      rfl
    rw [hids]
    rintro (h | ⟨ids, h, v, hv, hk⟩)
    · cases h
    · cases h
      rw [List.mem_singleton.mp hv] at hk
      exact absurd hk (by decide)

def untimed : Clock := ⟨fun _ => none, fun _ => ""⟩

/-- Whether the grant of an id is among them with the bit. -/
def carries (id : String) (a : Action) (found : Option (List GrantEntity)) : Bool :=
  found.any fun gs => gs.any fun g => g.id = id && g.flag a

theorem revokedLedger_unreached :
    ¬ ∀ (C : Clock) (ttlS : ℚ) (T : GrantTurn C), T.Reaches ttlS := by
  intro h
  obtain ⟨g, hg, hnames⟩ := revokedLedger_written
  have hreach := h untimed 30 (.write bundledLedger revokedLedger g 0 hg) "k" granteeGrantKey
  have hkey : ∀ L ∈ [bundledLedger, revokedLedger], ∀ root, getGrantById L.db "k" = .ok (some root) →
      root.granteeType = .str granteeGrantKey := by
    have hall : ([bundledLedger, revokedLedger].all fun L =>
        ((getGrantById L.db "k").toOption.bind id).all fun root => root.granteeType.eqStr granteeGrantKey) = true := by
      decide +kernel
    intro L hL root hroot
    have := List.all_eq_true.mp hall L hL
    rw [hroot] at this
    exact eqStr_iff.mp this
  have hbefore : carries "m" .read (grantsFor (untimed.ahead 0) bundledLedger.db "k"
    granteeGrantKey).toOption = true := by decide +kernel
  have hafter : carries "m" .read (grantsFor (untimed.ahead 0) revokedLedger.db "k"
    granteeGrantKey).toOption = false := by decide +kernel
  rcases hreach (fun _ => hkey) fun heq =>
    absurd (hbefore.symm.trans ((congrArg (carries "m" .read) heq).trans hafter)) (by decide) with
    ⟨g', hg', hn⟩ | hout
  · rw [List.mem_singleton.mp hg'] at hn
    exact hnames hn
  · exact hout trivial

end Mantle
