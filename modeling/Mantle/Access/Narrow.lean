import Mantle.Access.Keys

/-!
# Mantle.Access.Narrow — clearing bits of a bundle

Clearing a bit of a bundle takes it from the denies below too: what such a deny refused, an allow that comes by another
way admits.
-/

namespace Mantle

variable {c : GrantEntity} {id k : String} {q : List GrantEntity}

variable {b : GrantEntity} {bid key rid : String} {db : Store} {p : List GrantEntity}

/-! ### The ledger with bits cleared -/

namespace GrantEntity

/-- The grant with bits cleared. -/
def cut (S : Action → Bool) (g : GrantEntity) : GrantEntity := { g with flag := fun a => g.flag a && !S a }

/-- The bits are cleared under a condition. -/
def cutIf (S : Action → Bool) (t : Bool) (g : GrantEntity) : GrantEntity := if t then g.cut S else g

/-- The bits are cleared of one grant. -/
def cutAt (S : Action → Bool) (bid : String) (g : GrantEntity) : GrantEntity := g.cutIf S (g.id = bid)

variable {S : Action → Bool} {t : Bool} {bid : String} {g : GrantEntity}

@[simp] theorem cutIf_id : (g.cutIf S t).id = g.id := by cases t <;> rfl

@[simp] theorem cutIf_resource : (g.cutIf S t).resource = g.resource := by cases t <;> rfl

@[simp] theorem cutIf_effect : (g.cutIf S t).effect = g.effect := by cases t <;> rfl

@[simp] theorem cutIf_isAllow : (g.cutIf S t).isAllow = g.isAllow := by cases t <;> rfl

@[simp] theorem cutIf_isDeny : (g.cutIf S t).isDeny = g.isDeny := by cases t <;> rfl

@[simp] theorem cutIf_grantedBy : (g.cutIf S t).grantedBy = g.grantedBy := by cases t <;> rfl

@[simp] theorem cutIf_granteeType : (g.cutIf S t).granteeType = g.granteeType := by cases t <;> rfl

theorem cutIf_flag (a : Action) : (g.cutIf S t).flag a = (g.flag a && !(t && S a)) := by
  cases t <;> simp [cutIf, cut]

@[simp] theorem cutAt_id : (g.cutAt S bid).id = g.id := cutIf_id

theorem maskedBy_cutIf (c : GrantEntity) (u : Bool) :
    (g.cutIf S t).maskedBy (c.cutIf S u) = (g.maskedBy c).cutIf S (t || u) := by
  have hflag : (fun a => (g.cutIf S t).flag a && (c.cutIf S u).flag a) =
      fun a => (g.flag a && c.flag a) && !((t || u) && S a) := by
    funext a
    rw [cutIf_flag, cutIf_flag]
    cases t <;> cases u <;> cases g.flag a <;> cases c.flag a <;> cases S a <;> rfl
  cases t <;> cases u <;> simp_all [maskedBy, cutIf, cut, Grant.mask, Mask.meet, Grant.isAllow]

end GrantEntity

def grantKeys : List String :=
  ["id", "content_type", "resource_id", "grantee_type", "grantee_id", "granted_by", "effect", "state",
    "expires_at"]

def Doc.bit (d : Doc) (a : Action) : Bool := ((d.find? a.flag).getD (.bool (a = .read))).truthy

structure BitsCleared (S : Action → Bool) (d d' : Doc) : Prop where
  same : ∀ k ∈ grantKeys, d'.find? k = d.find? k
  bits : ∀ a, d'.bit a = (d.bit a && !S a)

/-- Bits of one grant of the store are cleared. -/
structure Narrowed (S : Action → Bool) (bid : String) (db db' : Store) : Prop where
  others : ∀ id, id ≠ bid → db'.vertex.lookup id = db.vertex.lookup id
  row : ∃ r r', db.vertex.lookup bid = some r ∧ db'.vertex.lookup bid = some r' ∧ r'.ct = r.ct ∧
    BitsCleared S r.doc.val r'.doc.val

/-- The document is that of the narrowed grant, or is as it was. -/
def DocCut (S : Action → Bool) (bid : String) (d d' : Doc) : Prop :=
  if (d.get "id").pyStr = bid then BitsCleared S d d' else d' = d

variable {d d' : Doc}

theorem DocCut.same {S : Action → Bool} (h : DocCut S bid d d') (hk : k ∈ grantKeys) :
    d'.find? k = d.find? k := by
  unfold DocCut at h
  split_ifs at h
  · exact h.same k hk
  · rw [h]

theorem DocCut.get {S : Action → Bool} (h : DocCut S bid d d') (hk : k ∈ grantKeys) :
    d'.get k = d.get k := by
  unfold Doc.get
  rw [h.same hk]

theorem BitsCleared.grant_ofDoc {S : Action → Bool} (h : BitsCleared S d d') :
    Grant.ofDoc d' = (Grant.ofDoc d).map fun g => { g with flag := fun a => g.flag a && !S a } := by
  have hbits : (fun a : Action => ((d'.find? a.flag).getD (.bool (a = .read))).truthy) =
      fun a => ((d.find? a.flag).getD (.bool (a = .read))).truthy && !S a := funext h.bits
  unfold Grant.ofDoc
  rw [h.same "effect" (by decide), h.same "resource_id" (by decide), hbits]
  cases (d.find? "effect").getD (.str "allow") <;> simp only [] <;> first | rfl | (split_ifs <;> rfl)

theorem BitsCleared.ofDoc {S : Action → Bool} (h : BitsCleared S d d') :
    GrantEntity.ofDoc d' = (GrantEntity.ofDoc d).map (GrantEntity.cut S) := by
  have hget : ∀ k ∈ grantKeys, d'.get k = d.get k := fun k hk => by
    unfold Doc.get
    rw [h.same k hk]
  unfold GrantEntity.ofDoc
  rw [h.grant_ofDoc, hget "id" (by decide), hget "granted_by" (by decide), hget "expires_at" (by decide),
    h.same "grantee_type" (by decide), h.same "grantee_id" (by decide), h.same "state" (by decide)]
  cases Grant.ofDoc d <;> rfl

theorem DocCut.ofDoc {S : Action → Bool} (h : DocCut S bid d d') :
    GrantEntity.ofDoc d' = (GrantEntity.ofDoc d).map (GrantEntity.cutAt S bid) := by
  unfold DocCut at h
  cases hg : GrantEntity.ofDoc d with
  | error e =>
    split_ifs at h
    · rw [h.ofDoc, hg]
      rfl
    · rw [h, hg]
      rfl
  | ok g =>
    have hid := (GrantEntity.ofDoc_ok hg).2.1
    show _ = Except.ok (g.cutIf S (g.id = bid))
    rw [hid]
    split_ifs at h with hb
    · rw [h.ofDoc, hg, hb]
      simp only [decide_true]
      rfl
    · rw [h, hg]
      simp only [hb, decide_false]
      rfl

section Narrow

variable {now : Val → Bool} {S : Action → Bool} {bid : String} {L L' : GrantLedger}

theorem Narrowed.grantAt (h : Narrowed S bid L.db L'.db) (hd : Mantle.grantAt L.db id = some d) :
    ∃ d', Mantle.grantAt L'.db id = some d' ∧ DocCut S bid d d' := by
  obtain ⟨r₀, hr₀, hd₀⟩ := grantAt_row hd
  have hname : (d.get "id").pyStr = id := by
    rw [← hd₀, L.named id r₀ hr₀]
    rfl
  by_cases hid : id = bid
  · subst hid
    obtain ⟨r, r', hr, hr', hct, hbits⟩ := h.row
    unfold Mantle.grantAt at hd ⊢
    rw [hr] at hd hr₀
    cases hr₀
    rw [hr', Option.bind_some]
    rw [Option.bind_some] at hd
    have hg : r'.isGrant = r₀.isGrant := by rw [VRow.isGrant, VRow.isGrant, hct]
    rw [hg]
    split_ifs at hd ⊢
    cases hd
    refine ⟨r'.doc.val, rfl, ?_⟩
    unfold DocCut
    rw [if_pos hname]
    exact hbits
  · refine ⟨d, ?_, ?_⟩
    · unfold Mantle.grantAt at hd ⊢
      rw [h.others id hid]
      exact hd
    · unfold DocCut
      rw [if_neg (by rw [hname]; exact hid)]

theorem Narrowed.grantAt_back (h : Narrowed S bid L.db L'.db) (hd : Mantle.grantAt L'.db id = some d') :
    ∃ d, Mantle.grantAt L.db id = some d ∧ DocCut S bid d d' := by
  have hback : ∃ d, Mantle.grantAt L.db id = some d := by
    by_cases hid : id = bid
    · subst hid
      obtain ⟨r, r', hr, hr', hct, hbits⟩ := h.row
      unfold Mantle.grantAt at hd ⊢
      rw [hr', Option.bind_some] at hd
      have hg : r'.isGrant = r.isGrant := by rw [VRow.isGrant, VRow.isGrant, hct]
      rw [hg] at hd
      split_ifs at hd with hgrant
      exact ⟨r.doc.val, by rw [hr, Option.bind_some, if_pos hgrant]⟩
    · unfold Mantle.grantAt at hd ⊢
      rw [h.others id hid] at hd
      exact ⟨d', hd⟩
  obtain ⟨d, hd₁⟩ := hback
  obtain ⟨d'', hd₂, hcut⟩ := h.grantAt hd₁
  rw [hd] at hd₂
  cases hd₂
  exact ⟨d, hd₁, hcut⟩

theorem Narrowed.docs (h : Narrowed S bid L.db L'.db) (grantee : String) (pick : Doc → Bool)
    (hpick : ∀ {d d'}, DocCut S bid d d' → pick d' = pick d) :
    (∀ d ∈ (grantDocsBy L.db grantee).filter pick, ∃ d' ∈ (grantDocsBy L'.db grantee).filter pick,
      DocCut S bid d d') ∧
    ∀ d' ∈ (grantDocsBy L'.db grantee).filter pick, ∃ d ∈ (grantDocsBy L.db grantee).filter pick,
      DocCut S bid d d' := by
  constructor
  · intro d hd
    obtain ⟨hd, hp⟩ := List.mem_filter.mp hd
    obtain ⟨hne, id, hat, hg⟩ := mem_grantDocsBy.mp hd
    obtain ⟨d', hat', hcut⟩ := h.grantAt hat
    refine ⟨d', List.mem_filter.mpr ⟨mem_grantDocsBy.mpr ⟨hne, id, hat', ?_⟩, ?_⟩, hcut⟩
    · rw [hcut.get (by decide)]
      exact hg
    · rw [hpick hcut]
      exact hp
  · intro d' hd'
    obtain ⟨hd', hp⟩ := List.mem_filter.mp hd'
    obtain ⟨hne, id, hat, hg⟩ := mem_grantDocsBy.mp hd'
    obtain ⟨d, hat', hcut⟩ := h.grantAt_back hat
    refine ⟨d, List.mem_filter.mpr ⟨mem_grantDocsBy.mpr ⟨hne, id, hat', ?_⟩, ?_⟩, hcut⟩
    · rw [← hcut.get (by decide)]
      exact hg
    · rw [← hpick hcut]
      exact hp

theorem DocCut.inForce (h : DocCut S bid d d') : Mantle.inForce now d' = Mantle.inForce now d := by
  unfold Mantle.inForce unexpired
  rw [h.get (k := "state") (by decide), h.get (k := "expires_at") (by decide)]

theorem DocCut.isOk (h : DocCut S bid d d') :
    (∃ g, GrantEntity.ofDoc d' = .ok g) ↔ ∃ g, GrantEntity.ofDoc d = .ok g := by
  rw [h.ofDoc]
  cases GrantEntity.ofDoc d with
  | error e => exact ⟨fun ⟨_, h⟩ => (by cases h), fun ⟨_, h⟩ => (by cases h)⟩
  | ok g => exact ⟨fun _ => ⟨g, rfl⟩, fun _ => ⟨_, rfl⟩⟩

theorem Narrowed.listMembers (h : Narrowed S bid L.db L'.db) (b : String) :
    ((∃ ms', Mantle.listMembers now L'.db b = .ok ms') ↔ ∃ ms, Mantle.listMembers now L.db b = .ok ms) ∧
    ∀ ms ms', Mantle.listMembers now L.db b = .ok ms → Mantle.listMembers now L'.db b = .ok ms' →
      ∀ m', m' ∈ ms' ↔ ∃ m ∈ ms, m.cutAt S bid = m' := by
  obtain ⟨hto, hback⟩ := h.docs b
    (fun d => Mantle.inForce now d && (d.get "grantee_type").eqStr granteeGrant)
    (fun hcut => by rw [hcut.inForce, hcut.get (by decide)])
  refine ⟨?_, ?_⟩
  · unfold Mantle.listMembers
    rw [mapM_isOk, mapM_isOk]
    constructor
    · intro hall d hd
      obtain ⟨d', hd', hcut⟩ := hto d hd
      exact hcut.isOk.mp (hall d' hd')
    · intro hall d' hd'
      obtain ⟨d, hd, hcut⟩ := hback d' hd'
      exact hcut.isOk.mpr (hall d hd)
  · intro ms ms' hms hms' m'
    rw [mapM_ok hms' m']
    constructor
    · rintro ⟨d', hd', hm'⟩
      obtain ⟨d, hd, hcut⟩ := hback d' hd'
      rw [hcut.ofDoc] at hm'
      obtain ⟨m, hg, hm'⟩ := bind_ok hm'
      cases hm'
      exact ⟨m, (mapM_ok hms m).mpr ⟨d, hd, hg⟩, rfl⟩
    · rintro ⟨m, hm, rfl⟩
      obtain ⟨d, hd, hg⟩ := (mapM_ok hms m).mp hm
      obtain ⟨d', hd', hcut⟩ := hto d hd
      refine ⟨d', hd', ?_⟩
      rw [hcut.ofDoc, hg]
      rfl

/-! ### The ways down -/

def through (bid : String) (p : List GrantEntity) : Bool := p.any fun g => g.id = bid

variable {root : GrantEntity}

theorem Narrowed.path (h : Narrowed S bid L.db L'.db) (hp : BundlePath now L.db root p b) :
    BundlePath now L'.db (root.cutAt S bid) (p.map (GrantEntity.cutAt S bid)) (b.cutIf S (through bid p)) := by
  induction hp with
  | root =>
    have : through bid [root] = decide (root.id = bid) := by simp [through]
    rw [this]
    exact .root
  | @kid n m p ms b hp hk hm ih =>
    obtain ⟨hok, hmem⟩ := @Narrowed.listMembers now S bid L L' h n.id
    obtain ⟨ms', hms'⟩ := hok.mpr ⟨ms, hk⟩
    have hm' := (hmem ms ms' hk hms' (m.cutAt S bid)).mpr ⟨m, hm, rfl⟩
    have hkid := Levels.Path.kid ih (show Mantle.listMembers now L'.db (n.cutAt S bid).id = .ok ms' by
      rw [GrantEntity.cutAt_id]
      exact hms') hm'
    have hval : (m.cutAt S bid).maskedBy (b.cutIf S (through bid (n :: p))) =
        (m.maskedBy b).cutIf S (through bid (m :: n :: p)) := by
      unfold GrantEntity.cutAt
      rw [GrantEntity.maskedBy_cutIf]
      rfl
    rw [← hval]
    exact hkid

theorem Narrowed.path_back (h : Narrowed S bid L.db L'.db) (hq : BundlePath now L'.db (root.cutAt S bid) q c) :
    ∃ p b, BundlePath now L.db root p b ∧
      q = p.map (GrantEntity.cutAt S bid) ∧ c = b.cutIf S (through bid p) := by
  induction hq with
  | root => exact ⟨[root], root, .root, rfl, by simp [through, GrantEntity.cutAt]⟩
  | @kid n' m' q ms' c hq hk hm ih =>
    obtain ⟨p, b, hp, hqp, hcb⟩ := ih
    cases p with
    | nil => cases hqp
    | cons n p =>
      obtain ⟨rfl, rfl⟩ := List.cons.inj hqp
      rw [GrantEntity.cutAt_id] at hk
      obtain ⟨hok, hmem⟩ := @Narrowed.listMembers now S bid L L' h n.id
      obtain ⟨ms, hms⟩ := hok.mp ⟨ms', hk⟩
      obtain ⟨m, hm₀, rfl⟩ := (hmem ms ms' hms hk m').mp hm
      refine ⟨m :: n :: p, m.maskedBy b, .kid hp hms hm₀, rfl, ?_⟩
      rw [hcb]
      unfold GrantEntity.cutAt
      rw [GrantEntity.maskedBy_cutIf]
      rfl

/-! ### What the narrowed key can do -/

/-- The rows that are left out for an action. -/
def cleared (S : Action → Bool) (bid : String) (x : Action) (id : String) : Bool := S x && decide (id = bid)

theorem cutAt_flag (g : GrantEntity) (x : Action) :
    (g.cutAt S bid).flag x = (g.flag x && !cleared S bid x g.id) := by
  unfold GrantEntity.cutAt cleared
  rw [GrantEntity.cutIf_flag, Bool.and_comm (S x)]

theorem avoids_iff {x : Action} :
    (∀ n ∈ p, cleared S bid x n.id = false) ↔ (through bid p && S x) = false := by
  unfold cleared through
  cases S x <;> simp

theorem Narrowed.issuerHolds (h : Narrowed S bid L.db L'.db) (user rid : String) (x : Action) :
    IssuerHolds now L'.db (fun _ => false) user rid x ↔ IssuerHolds now L.db (cleared S bid x) user rid x := by
  obtain ⟨hto, hback⟩ := h.docs user
    (fun d => Mantle.inForce now d && (d.get "resource_id").eqStr rid)
    (fun hcut => by rw [hcut.inForce, hcut.get (by decide)])
  constructor
  · rintro ⟨hu, ⟨d', hd', g', hg', -, hallow, hflag⟩, hnone⟩
    refine ⟨hu, ?_, ?_⟩
    · obtain ⟨d, hd, hcut⟩ := hback d' hd'
      obtain ⟨g, hg⟩ := hcut.isOk.mp ⟨g', hg'⟩
      rw [hcut.ofDoc, hg] at hg'
      cases hg'
      rw [cutAt_flag, Bool.and_eq_true, Bool.not_eq_true'] at hflag
      exact ⟨d, hd, g, hg, hflag.2, GrantEntity.cutIf_isAllow ▸ hallow, hflag.1⟩
    · intro d hd g hg hout hdeny
      obtain ⟨d', hd', hcut⟩ := hto d hd
      have hg' := hcut.ofDoc
      rw [hg] at hg'
      have := hnone d' hd' _ hg' rfl (by rw [← hdeny]; exact GrantEntity.cutIf_isAllow)
      rw [cutAt_flag, hout] at this
      simpa using this
  · rintro ⟨hu, ⟨d, hd, g, hg, hout, hallow, hflag⟩, hnone⟩
    refine ⟨hu, ?_, ?_⟩
    · obtain ⟨d', hd', hcut⟩ := hto d hd
      have hg' := hcut.ofDoc
      rw [hg] at hg'
      refine ⟨d', hd', _, hg', rfl, ?_, ?_⟩
      · rw [← hallow]
        exact GrantEntity.cutIf_isAllow
      · rw [cutAt_flag, hout, hflag]
        rfl
    · intro d' hd' g' hg' _ hdeny
      obtain ⟨d, hd, hcut⟩ := hback d' hd'
      obtain ⟨g, hg⟩ := hcut.isOk.mp ⟨g', hg'⟩
      rw [hcut.ofDoc, hg] at hg'
      cases hg'
      rw [cutAt_flag]
      cases hout : cleared S bid x g.id with
      | true => simp
      | false =>
        rw [hnone d hd g hg hout (by rw [← hdeny]; exact GrantEntity.cutIf_isAllow.symm)]
        rfl

theorem Narrowed.holds (h : Narrowed S bid L.db L'.db) (hb : KeyHolds now L.db root p b) :
    KeyHolds now L'.db (root.cutAt S bid) (p.map (GrantEntity.cutAt S bid)) (b.cutIf S (through bid p)) :=
  ⟨h.path hb.path, by rw [List.length_map]; exact hb.depth⟩

theorem Narrowed.holds_back (h : Narrowed S bid L.db L'.db) (hc : KeyHolds now L'.db (root.cutAt S bid) q c) :
    ∃ p b, KeyHolds now L.db root p b ∧ c = b.cutIf S (through bid p) := by
  obtain ⟨p, b, hp, rfl, hcb⟩ := h.path_back hc.path
  exact ⟨p, b, ⟨hp, by simpa using hc.depth⟩, hcb⟩

/-- **The narrowed key** can do what the key could with the grant, and all that comes by way of it, left out
for the cleared actions. -/
theorem Narrowed.keyMay (h : Narrowed S bid L.db L'.db) (rid : String) (x : Action) :
    KeyMay now L'.db (root.cutAt S bid) (fun _ => false) rid x ↔
      KeyMay now L.db root (cleared S bid x) rid x := by
  constructor
  · rintro ⟨hnone, q, c, hc, -, hres, hallow, hflag, hback⟩
    refine ⟨?_, ?_⟩
    · intro p b hb hp hbr hdeny
      have := hnone _ _ (h.holds hb) (fun _ _ => rfl) (by rw [GrantEntity.cutIf_resource]; exact hbr)
        (by rw [GrantEntity.cutIf_isDeny]; exact hdeny)
      rw [GrantEntity.cutIf_flag, avoids_iff.mp hp] at this
      simpa using this
    · obtain ⟨p, b, hb, rfl⟩ := h.holds_back hc
      rw [GrantEntity.cutIf_resource] at hres
      rw [GrantEntity.cutIf_isAllow] at hallow
      rw [GrantEntity.cutIf_flag, Bool.and_eq_true, Bool.not_eq_true'] at hflag
      unfold Backed at hback
      rw [GrantEntity.cutIf_grantedBy, h.issuerHolds] at hback
      exact ⟨p, b, hb, avoids_iff.mpr hflag.2, hres, hallow, hflag.1, hback⟩
  · rintro ⟨hnone, p, b, hb, hp, hres, hallow, hflag, hback⟩
    refine ⟨?_, ?_⟩
    · intro q c hc _ hcr hdeny
      obtain ⟨p', b', hb', rfl⟩ := h.holds_back hc
      rw [GrantEntity.cutIf_resource] at hcr
      rw [GrantEntity.cutIf_isDeny] at hdeny
      rw [GrantEntity.cutIf_flag]
      cases hout : (through bid p' && S x) with
      | true => simp
      | false =>
        rw [hnone p' b' hb' (avoids_iff.mpr hout) hcr hdeny]
        rfl
    · refine ⟨_, _, h.holds hb, fun _ _ => rfl, ?_, ?_, ?_, ?_⟩
      · rw [GrantEntity.cutIf_resource]
        exact hres
      · rw [GrantEntity.cutIf_isAllow]
        exact hallow
      · rw [GrantEntity.cutIf_flag, avoids_iff.mp hp, hflag]
        rfl
      · unfold Backed
        rw [GrantEntity.cutIf_grantedBy, h.issuerHolds]
        exact hback

theorem Narrowed.asHeldNow_isOk (h : Narrowed S bid L.db L'.db) {t : Bool} :
    (∃ g, asHeldNow now L'.db (b.cutIf S t) = .ok g) ↔ ∃ g, asHeldNow now L.db b = .ok g := by
  have hflags : ∀ user rid, (∃ held, effectiveFlags now L'.db user rid = .ok held) ↔
      ∃ held, effectiveFlags now L.db user rid = .ok held := by
    intro user rid
    obtain ⟨hto, hback⟩ := h.docs user
      (fun d => Mantle.inForce now d && (d.get "resource_id").eqStr rid)
      (fun hcut => by rw [hcut.inForce, hcut.get (by decide)])
    rw [effectiveFlags_isOk, effectiveFlags_isOk]
    refine or_congr_right ⟨?_, ?_⟩
    · intro hall d hd
      obtain ⟨d', hd', hcut⟩ := hto d hd
      exact hcut.isOk.mp (hall d' hd')
    · intro hall d' hd'
      obtain ⟨d, hd, hcut⟩ := hback d' hd'
      exact hcut.isOk.mpr (hall d hd)
  rw [Mantle.asHeldNow_isOk, Mantle.asHeldNow_isOk]
  simp only [GrantEntity.cutIf_resource, GrantEntity.cutIf_grantedBy, GrantEntity.cutIf_isAllow, hflags]

theorem Narrowed.getGrantById (h : Narrowed S bid L.db L'.db) (hroot : Mantle.getGrantById L.db key = .ok (some root)) :
    Mantle.getGrantById L'.db key = .ok (some (root.cutAt S bid)) := by
  obtain ⟨-, hid⟩ := stored_of_getGrantById L.named hroot
  by_cases hk : key = bid
  · subst hk
    obtain ⟨r, r', hr, hr', -, hbits⟩ := h.row
    have hct : r'.doc.val.get "content_type" = r.doc.val.get "content_type" := by
      unfold Doc.get
      rw [hbits.same _ (by decide)]
    unfold Mantle.getGrantById docOf at hroot ⊢
    rw [hr, Option.bind_some] at hroot
    rw [hr', Option.bind_some]
    by_cases hempty : r.doc.val.isEmpty = true
    · rw [if_pos hempty] at hroot
      cases hroot
    · rw [if_neg hempty] at hroot
      dsimp only at hroot
      split_ifs at hroot with hgrant
      · have hne : ¬r'.doc.val.isEmpty = true := by
          intro he
          rw [List.isEmpty_iff] at he
          rw [← hct, he] at hgrant
          cases hgrant
        rw [if_neg hne]
        dsimp only
        rw [hct, if_pos hgrant, hbits.ofDoc]
        cases hg : GrantEntity.ofDoc r.doc.val with
        | error e =>
          rw [hg] at hroot
          cases hroot
        | ok g =>
          rw [hg] at hroot
          cases hroot
          unfold GrantEntity.cutAt
          rw [hid]
          simp only [decide_true]
          rfl
      · cases hroot
  · have hsame : root.cutAt S bid = root := by
      unfold GrantEntity.cutAt
      rw [hid]
      simp only [hk, decide_false]
      rfl
    rw [hsame, ← hroot]
    unfold Mantle.getGrantById docOf
    rw [h.others key hk]

theorem Narrowed.keyResolve_isOk (h : Narrowed S bid L.db L'.db) {key : String}
    (hroot : Mantle.getGrantById L.db key = .ok (some root)) (hkey : root.granteeType = .str granteeGrantKey) :
    (∃ gs, keyResolve now L'.db (root.cutAt S bid) = .ok gs) ↔ ∃ gs, keyResolve now L.db root = .ok gs := by
  have hkey' : (root.cutAt S bid).granteeType = .str granteeGrantKey := by
    unfold GrantEntity.cutAt
    rw [GrantEntity.cutIf_granteeType]
    exact hkey
  rw [Mantle.keyResolve_isOk L.named (stored_of_getGrantById L.named hroot).1 hkey,
    Mantle.keyResolve_isOk L'.named (stored_of_getGrantById L'.named (h.getGrantById hroot)).1 hkey']
  refine and_congr ⟨?_, ?_⟩ ⟨?_, ?_⟩
  · intro hall n p b hp hd
    have := hall _ _ _ (h.path hp) (by rw [List.length_map]; exact hd)
    rw [GrantEntity.cutAt_id] at this
    exact (h.listMembers n.id).1.mp this
  · intro hall n' q c hq hd
    obtain ⟨p, b, hp, hqp, -⟩ := h.path_back hq
    cases p with
    | nil => cases hqp
    | cons n p =>
      obtain ⟨rfl, rfl⟩ := List.cons.inj hqp
      rw [GrantEntity.cutAt_id]
      exact (h.listMembers n.id).1.mpr (hall n p b hp (by simpa using hd))
  · intro hall p b hb hres
    exact h.asHeldNow_isOk.mp (hall _ _ (h.holds hb) (by rw [GrantEntity.cutIf_resource]; exact hres))
  · intro hall q c hc hres
    obtain ⟨p, b, hb, rfl⟩ := h.holds_back hc
    rw [GrantEntity.cutIf_resource] at hres
    exact h.asHeldNow_isOk.mpr (hall p b hb hres)

end Narrow

/-! ### When narrowing widens -/

def KeyCan (now : Val → Bool) (db : Store) (key rid : String) (x : Action) : Prop :=
  ∃ root gs, getGrantById db key = .ok (some root) ∧ keyResolve now db root = .ok gs ∧
    keyAuthorizes gs rid x = true

/-- Every allow the key resolves to lies under the root and every bundle on its way. -/
def UnderCeilings (now : Val → Bool) (db : Store) (root : GrantEntity) : Prop :=
  ∀ gs, keyResolve now db root = .ok gs → ∀ g ∈ gs, g.isAllow = true →
    ∃ p b, KeyHolds now db root p b ∧ asHeldNow now db b = .ok g ∧ root ∈ p ∧
      ∀ n ∈ p, ∀ a, g.flag a = true → n.flag a = true

/-- Clearing the bits opens the action: another way allows it, none denies it, and only the grant stood against it. -/
structure Opens (now : Val → Bool) (db : Store) (root : GrantEntity) (bid : String) (S : Action → Bool)
    (rid : String) (x : Action) : Prop where
  cleared : S x = true
  allowed : ∃ p b, KeyHolds now db root p b ∧ through bid p = false ∧ b.resource = some rid ∧
    b.isAllow = true ∧ b.flag x = true ∧ Backed now db (fun id => decide (id = bid)) b rid x
  undenied : ∀ p b, KeyHolds now db root p b → through bid p = false → b.resource = some rid →
    b.isDeny = true → b.flag x = false
  hidden : (∃ p b, KeyHolds now db root p b ∧ through bid p = true ∧ b.resource = some rid ∧
      b.isDeny = true ∧ b.flag x = true) ∨
    ∀ p b, KeyHolds now db root p b → b.resource = some rid → b.isAllow = true → b.flag x = true →
      ¬Backed now db (fun _ => false) b rid x

section Widen

variable {now : Val → Bool} {S : Action → Bool} {bid : String} {root : GrantEntity}

theorem underCeilings (L : GrantLedger) (hroot : Stored L.db root)
    (hkey : root.granteeType = .str granteeGrantKey) : UnderCeilings now L.db root := by
  -- the value that goes down a way lies under every grant on it
  have hunder : ∀ {p : List GrantEntity} {b : GrantEntity}, BundlePath now L.db root p b →
      root ∈ p ∧ ∀ n ∈ p, ∀ a, b.flag a = true → n.flag a = true := by
    intro p b hp
    induction hp with
    | root =>
      refine ⟨by simp, fun n hn a ha => ?_⟩
      rw [List.mem_singleton.mp hn]
      exact ha
    | @kid n m p ms b _ _ _ ih =>
      refine ⟨List.mem_cons_of_mem _ ih.1, fun n' hn' a ha => ?_⟩
      have hboth : m.flag a = true ∧ b.flag a = true := by
        rw [← Bool.and_eq_true]
        exact ha
      rcases List.mem_cons.mp hn' with rfl | hn'
      · exact hboth.1
      · exact ih.2 n' hn' a hboth.2
  intro gs hgs g hg _
  obtain ⟨p, b, hb, -, hgb⟩ := (mem_keyResolve L.named hroot hkey hgs g).mp hg
  obtain ⟨hmem, hflags⟩ := hunder hb.path
  exact ⟨p, b, hb, hgb, hmem, fun n hn a ha => hflags n hn a ((asHeldNow_fields hgb).2.2.2 a ha)⟩

theorem opens_iff {x : Action} : Opens now db root bid S rid x ↔
    S x = true ∧ KeyMay now db root (cleared S bid x) rid x ∧ ¬KeyMay now db root (fun _ => false) rid x := by
  have hout : S x = true → cleared S bid x = fun id => decide (id = bid) := by
    intro hS
    funext id
    rw [cleared, hS, Bool.true_and]
  have hway : S x = true → ∀ {p : List GrantEntity}, (∀ n ∈ p, cleared S bid x n.id = false) ↔
      through bid p = false := by
    intro hS p
    rw [avoids_iff, hS, Bool.and_true]
  constructor
  · rintro ⟨hS, ⟨p, b, hb, hp, hres, hallow, hflag, hback⟩, hnone, hhid⟩
    refine ⟨hS, ⟨fun p b hb hp => hnone p b hb ((hway hS).mp hp), p, b, hb, (hway hS).mpr hp, hres, hallow,
      hflag, by rw [hout hS]; exact hback⟩, ?_⟩
    intro hmay
    rcases hhid with ⟨p', b', hb', -, hres', hdeny', hflag'⟩ | hhid
    · have := hmay.undenied p' b' hb' (fun _ _ => rfl) hres' hdeny'
      rw [hflag'] at this
      cases this
    · obtain ⟨p', b', hb', -, hres', hallow', hflag', hback'⟩ := hmay.allowed
      exact hhid p' b' hb' hres' hallow' hflag' hback'
  · rintro ⟨hS, hmay, hnot⟩
    obtain ⟨p, b, hb, hp, hres, hallow, hflag, hback⟩ := hmay.allowed
    refine ⟨hS, ⟨p, b, hb, (hway hS).mp hp, hres, hallow, hflag, by rw [← hout hS]; exact hback⟩,
      fun p b hb hp => hmay.undenied p b hb ((hway hS).mpr hp), ?_⟩
    by_contra hhid
    obtain ⟨hno, hyes⟩ := not_or.mp hhid
    push Not at hno hyes
    obtain ⟨p', b', hb', hres', hallow', hflag', hback'⟩ := hyes
    refine hnot ⟨?_, p', b', hb', fun _ _ => rfl, hres', hallow', hflag', hback'⟩
    intro q c hc _ hcr hcd
    cases hq : through bid q with
    | false => exact hmay.undenied q c hc ((hway hS).mpr hq) hcr hcd
    | true => simpa using hno q c hc hq hcr hcd

/-- **Narrowing a grant never widens a key**, exactly when clearing the bits opens nothing. -/
theorem narrowing_safe_iff (now : Val → Bool) {L L' : GrantLedger} (h : Narrowed S bid L.db L'.db)
    {key : String} (hroot : getGrantById L.db key = .ok (some root))
    (hkey : root.granteeType = .str granteeGrantKey) :
    ((∀ rid x, KeyCan now L'.db key rid x → KeyCan now L.db key rid x) ∧ UnderCeilings now L.db root) ↔
      ((∃ gs, keyResolve now L.db root = .ok gs) → ∀ rid x, ¬Opens now L.db root bid S rid x) := by
  have hstored := (stored_of_getGrantById L.named hroot).1
  have hroot' := h.getGrantById hroot
  have hstored' := (stored_of_getGrantById L'.named hroot').1
  have hkey' : (root.cutAt S bid).granteeType = .str granteeGrantKey := by
    unfold GrantEntity.cutAt
    rw [GrantEntity.cutIf_granteeType]
    exact hkey
  have hok := @Narrowed.keyResolve_isOk now _ _ _ _ _ h _ hroot hkey
  -- both sides, in terms of the ledger before
  have hbefore : ∀ rid x, KeyCan now L.db key rid x ↔
      (∃ gs, keyResolve now L.db root = .ok gs) ∧ KeyMay now L.db root (fun _ => false) rid x := by
    intro rid x
    constructor
    · rintro ⟨root₁, gs, hr, hgs, hauth⟩
      rw [hroot] at hr
      cases hr
      exact ⟨⟨gs, hgs⟩, (keyAuthorizes_iff L.named hstored hkey hgs rid x).mp hauth⟩
    · rintro ⟨⟨gs, hgs⟩, hmay⟩
      exact ⟨root, gs, hroot, hgs, (keyAuthorizes_iff L.named hstored hkey hgs rid x).mpr hmay⟩
  have hafter : ∀ rid x, KeyCan now L'.db key rid x ↔
      (∃ gs, keyResolve now L.db root = .ok gs) ∧ KeyMay now L.db root (cleared S bid x) rid x := by
    intro rid x
    rw [← hok, ← h.keyMay]
    constructor
    · rintro ⟨root₁, gs, hr, hgs, hauth⟩
      rw [hroot'] at hr
      cases hr
      exact ⟨⟨gs, hgs⟩, (keyAuthorizes_iff L'.named hstored' hkey' hgs rid x).mp hauth⟩
    · rintro ⟨⟨gs, hgs⟩, hmay⟩
      exact ⟨_, gs, hroot', hgs, (keyAuthorizes_iff L'.named hstored' hkey' hgs rid x).mpr hmay⟩
  simp only [hbefore, hafter, opens_iff]
  constructor
  · rintro ⟨hsafe, -⟩ hres rid x ⟨-, hmay, hnot⟩
    exact hnot (hsafe rid x ⟨hres, hmay⟩).2
  · intro hclosed
    refine ⟨?_, underCeilings L hstored hkey⟩
    rintro rid x ⟨hres, hmay⟩
    refine ⟨hres, ?_⟩
    cases hS : S x with
    | false =>
      have : cleared S bid x = fun _ => false := by
        funext id
        rw [cleared, hS, Bool.false_and]
      rw [this] at hmay
      exact hmay
    | true =>
      by_contra hnot
      exact hclosed hres rid x ⟨hS, hmay, hnot⟩

theorem not_opens_root {x : Action} : ¬Opens now db root root.id S rid x := by
  intro h
  obtain ⟨p, b, hb, hp, -⟩ := h.allowed
  have hmem : root ∈ p := by
    have : ∀ {p b}, BundlePath now db root p b → root ∈ p := by
      intro p b hp
      induction hp with
      | root => simp
      | kid _ _ _ ih => exact List.mem_cons_of_mem _ ih
    exact this hb.path
  have : through root.id p = true := List.any_eq_true.mpr ⟨root, hmem, by simp⟩
  rw [hp] at this
  cases this

end Widen

/-! ### Clearing one bit -/

def GrantLedger.clearBit (L : GrantLedger) (a : Action) (bid : String) : GrantLedger :=
  L.setField bid a.flag (.bool false) (by cases a <;> decide)

theorem Action.flag_inj {a b : Action} (h : a.flag = b.flag) : a = b := by
  revert h
  cases a <;> cases b <;> decide

theorem bitsCleared_set (d : Doc) (a : Action) :
    BitsCleared (fun x => decide (x = a)) d (d.set a.flag (.bool false)) := by
  refine ⟨?_, ?_⟩
  · intro k hk
    have hne : k ≠ a.flag := by
      revert k
      cases a <;> decide
    rw [Doc.find?_set, if_neg hne]
  · intro x
    unfold Doc.bit
    rw [Doc.find?_set]
    by_cases hx : x = a
    · subst hx
      simp [Val.truthy]
    · rw [if_neg fun he => hx (Action.flag_inj he)]
      simp [hx]

theorem narrowed_clearBit {L : GrantLedger} {a : Action} {r : VRow} (h : L.db.vertex.lookup bid = some r) :
    Narrowed (fun x => decide (x = a)) bid L.db (L.clearBit a bid).db := by
  refine ⟨?_, r, { r with doc := jsonSet r.doc a.flag (.bool false) }, h, ?_, rfl, ?_⟩
  · intro id hid
    exact (setField_lookup h id).trans (if_neg hid)
  · exact (setField_lookup h bid).trans (if_pos rfl)
  · show BitsCleared _ r.doc.val (jsonSet r.doc a.flag (.bool false)).val
    rw [jsonSet_val]
    exact bitsCleared_set _ _

def keyCanB (now : Val → Bool) (db : Store) (key rid : String) (x : Action) : Bool :=
  match getGrantById db key with
  | .ok (some root) =>
    match keyResolve now db root with
    | .ok gs => keyAuthorizes gs rid x
    | .error _ => false
  | _ => false

theorem keyCan_iff {now : Val → Bool} {x : Action} :
    KeyCan now db key rid x ↔ keyCanB now db key rid x = true := by
  unfold KeyCan keyCanB
  constructor
  · rintro ⟨root, gs, hr, hgs, hauth⟩
    rw [hr]
    dsimp only
    rw [hgs]
    exact hauth
  · intro h
    split at h
    · rename_i root hr
      split at h
      · rename_i gs hgs
        exact ⟨root, gs, hr, hgs, h⟩
      · cases h
    · cases h

theorem bundledLedger_root : ∃ root, getGrantById bundledLedger.db "k" = .ok (some root) ∧
    root.granteeType = .str granteeGrantKey ∧ root.id = "k" := by
  have h : (match getGrantById bundledLedger.db "k" with
      | .ok (some root) => root.granteeType.eqStr granteeGrantKey && decide (root.id = "k")
      | _ => false) = true := by decide +kernel
  split at h
  · rename_i root hroot
    rw [Bool.and_eq_true, decide_eq_true_eq] at h
    exact ⟨root, hroot, eqStr_iff.mp h.1, h.2⟩
  · cases h

theorem bundledLedger_nested {root : GrantEntity} (hid : root.id = "k") :
    ∃ p b, KeyHolds (fun _ => true) bundledLedger.db root p b ∧ through "b" p = true := by
  have h : (match listMembers (fun _ => true) bundledLedger.db "k" with
      | .ok ms => ms.any fun m => m.id = "b"
      | .error _ => false) = true := by decide +kernel
  split at h
  · rename_i ms hms
    obtain ⟨m, hm, hb⟩ := List.any_eq_true.mp h
    rw [← hid] at hms
    exact ⟨[m, root], m.maskedBy root, ⟨.kid .root hms hm, by simp [maxBundleDepth]⟩, by simp [through, of_decide_eq_true hb]⟩
  · cases h

theorem bundledLedger_widens :
    ¬ ∀ (now : Val → Bool) (L L' : GrantLedger) (S : Action → Bool) (bid key : String) (root : GrantEntity),
      Narrowed S bid L.db L'.db → getGrantById L.db key = .ok (some root) →
      root.granteeType = .str granteeGrantKey →
      (∃ p b, KeyHolds now L.db root p b ∧ through bid p = true) →
        (∀ rid x, KeyCan now L'.db key rid x → KeyCan now L.db key rid x) ∧ UnderCeilings now L.db root := by
  intro h
  obtain ⟨root, hroot, hkey, hid⟩ := bundledLedger_root
  have hb : (bundledLedger.db.vertex.lookup "b").isSome = true := by decide +kernel
  obtain ⟨r, hr⟩ := Option.isSome_iff_exists.mp hb
  have hsafe := (h (fun _ => true) bundledLedger (bundledLedger.clearBit .read "b") _ "b" "k" root
    (narrowed_clearBit hr) hroot hkey (bundledLedger_nested hid)).1 "r" .read
  rw [keyCan_iff, keyCan_iff] at hsafe
  exact absurd (hsafe (by decide +kernel)) (by decide +kernel)

theorem narrowing_safe_iff_root : ∃ root, getGrantById bundledLedger.db "k" = .ok (some root) ∧
    (∀ rid x, KeyCan (fun _ => true) (bundledLedger.clearBit .read "k").db "k" rid x →
      KeyCan (fun _ => true) bundledLedger.db "k" rid x) ∧
    UnderCeilings (fun _ => true) bundledLedger.db root := by
  obtain ⟨root, hroot, hkey, hid⟩ := bundledLedger_root
  have hk : (bundledLedger.db.vertex.lookup "k").isSome = true := by decide +kernel
  obtain ⟨r, hr⟩ := Option.isSome_iff_exists.mp hk
  have hcut : Narrowed (fun x => decide (x = .read)) "k" bundledLedger.db (bundledLedger.clearBit .read "k").db :=
    narrowed_clearBit hr
  refine ⟨root, hroot, (narrowing_safe_iff (fun _ => true) hcut hroot hkey).mpr ?_⟩
  intro _ rid x
  rw [← hid]
  exact not_opens_root

end Mantle
