import Mantle.Base.Levels
import Mantle.Access.Frame

/-!
# Mantle.Access.Keys — grant keys and bundles (`services/grant_key_service.py`)

`keyResolve` expands a key into the grants its bearer holds, each met with every bundle above it and with what its
issuer holds now.
-/

namespace Mantle

variable {d : Doc} {id rid : String}

/-! ### Grants as entities -/

structure GrantEntity extends Grant where
  id : String
  granteeType : Val
  granteeId : Val
  grantedBy : String
  state : Val
  expiresAt : Val

namespace GrantEntity

/-- `from_lattice_doc`, of a grant.  An issuer is read by its text. -/
def ofDoc (d : Doc) : Except AccessErr GrantEntity :=
  (Grant.ofDoc d).map fun g =>
    { g with
      id := (d.get "id").pyStr
      granteeType := (d.find? "grantee_type").getD (.str "")
      granteeId := (d.find? "grantee_id").getD (.str "")
      grantedBy := if (d.get "granted_by").truthy then (d.get "granted_by").pyStr else ""
      state := (d.find? "state").getD (.str "active")
      expiresAt := d.get "expires_at" }

/-- `Grant.masked_by`: the bits are met, and an allow under what is no allow becomes a deny. -/
def maskedBy (g ceiling : GrantEntity) : GrantEntity :=
  { g with
    flag := (g.mask.meet ceiling.mask).carries
    effect := if g.isAllow && !(g.mask.meet ceiling.mask).isAllow then "deny" else g.effect }

def isActive (g : GrantEntity) : Bool := g.state.eqStr "active"

end GrantEntity

def granteeGrant : String := "grant"
def granteeGrantKey : String := "grant_key"

/-! ### Reading the ledger -/

section Ledger

variable (now : Val → Bool) (db : Store)

/-- The documents of the grants a grantee of some kind holds. -/
def heldDocs (grantee kind : String) : List Doc :=
  (grantDocsBy db grantee).filter fun d => inForce now d && (d.get "grantee_type").eqStr kind

def listMembers (bundle : String) : Except AccessErr (List GrantEntity) :=
  (heldDocs now db bundle granteeGrant).mapM GrantEntity.ofDoc

def getGrantById (id : String) : Except AccessErr (Option GrantEntity) :=
  match docOf db id with
  | none => .ok none
  | some d =>
    if (d.get "content_type").eqStr grantContentType then (GrantEntity.ofDoc d).map some else .ok none

/-- `effective_flags`: what the allow grants of a principal on a resource join, less what any other of its
grants there names. -/
def effectiveFlags (user rid : String) : Except AccessErr (Action → Bool) :=
  if user = "" then .ok fun _ => false
  else
    (getActiveGrantsForPrincipalResource now db user rid).map fun grants a =>
      (grants.any fun g => g.mask.isAllow && g.mask.carries a) &&
        !grants.any fun g => g.mask.isDeny && g.mask.carries a

/-- `_as_held_now`: an allow is narrowed to what its issuer holds on its resource. -/
def asHeldNow (g : GrantEntity) : Except AccessErr GrantEntity :=
  match g.resource with
  | none => .ok g
  | some rid =>
    if g.grantedBy = "" || !g.isAllow then .ok g
    else
      (effectiveFlags now db g.grantedBy rid).map fun held =>
        { g with flag := (g.mask.meet ⟨held, true⟩).carries }

def maxBundleDepth : ℕ := 16

/-- What the walk of `resolve` finds: the root and the members below it, each met with every bundle above
it. -/
def bundleWalk (root : GrantEntity) : Except AccessErr (List (GrantEntity × GrantEntity)) :=
  Levels.expand GrantEntity.id (fun b => listMembers now db b.id) (fun ceiling m => m.maskedBy ceiling)
    maxBundleDepth root root

/-- `resolve`: what of it names a resource, as its issuer holds it now. -/
def keyResolve (root : GrantEntity) : Except AccessErr (List GrantEntity) :=
  match bundleWalk now db root with
  | .error e => .error e
  | .ok found => (found.filter fun e => e.2.resource.isSome).mapM fun e => asHeldNow now db e.2

/-- `LightConeResolver._grants_for`: a key's are those of its bundle, any other principal's those it holds as
a user. -/
def grantsFor (p kind : String) : Except AccessErr (List GrantEntity) :=
  if kind = granteeGrantKey then
    match getGrantById db p with
    | .error e => .error e
    | .ok none => .ok []
    | .ok (some root) => if root.isActive then keyResolve now db root else .ok []
  else (heldDocs now db p "user").mapM GrantEntity.ofDoc

end Ledger

/-- `_check_grants`, of a key: a deny on the resource refuses, then an allow admits. -/
def keyAuthorizes (grants : List GrantEntity) (rid : String) (a : Action) : Bool :=
  let here := grants.filter fun g => decide (g.resource = some rid)
  (!here.any fun g => g.isDeny && g.flag a) && here.any fun g => g.isAllow && g.flag a

/-! ### The ledger as a tree of bundles -/

/-- A store whose documents carry the ids they are stored under. -/
structure GrantLedger where
  db : Store
  named : ∀ id r, db.vertex.lookup id = some r → r.doc.val.get "id" = .str id

section Tree

variable (now : Val → Bool) (db : Store) (root : GrantEntity)

/-- A way down from the root through the bundles, its end first, and the grant at its end as the bundles
above let it through. -/
abbrev BundlePath : List GrantEntity → GrantEntity → Prop :=
  Levels.Path (fun b : GrantEntity => listMembers now db b.id) (fun ceiling m => m.maskedBy ceiling) root root

structure KeyHolds (p : List GrantEntity) (g : GrantEntity) : Prop where
  path : BundlePath now db root p g
  depth : p.length ≤ maxBundleDepth + 1

end Tree

section Spec

variable {now : Val → Bool} {db : Store}

theorem mem_heldDocs {grantee kind : String} : d ∈ heldDocs now db grantee kind ↔
    grantee ≠ "" ∧ (∃ id, grantAt db id = some d ∧ (d.get "grantee_id").eqStr grantee = true) ∧
      inForce now d = true ∧ (d.get "grantee_type").eqStr kind = true := by
  unfold heldDocs
  rw [List.mem_filter, mem_grantDocsBy, Bool.and_eq_true]
  tauto

theorem mem_resourceDocs {p : String} : d ∈ resourceGrantDocs now db p rid ↔
    p ≠ "" ∧ (∃ id, grantAt db id = some d ∧ (d.get "grantee_id").eqStr p = true) ∧
      inForce now d = true ∧ (d.get "resource_id").eqStr rid = true := by
  unfold resourceGrantDocs
  rw [List.mem_filter, mem_grantDocsBy, Bool.and_eq_true]
  tauto

theorem grantAt_row (h : grantAt db id = some d) :
    ∃ r, db.vertex.lookup id = some r ∧ r.doc.val = d := by
  unfold grantAt at h
  obtain ⟨r, hr, hd⟩ := Option.bind_eq_some_iff.mp h
  split_ifs at hd
  cases hd
  exact ⟨r, hr, rfl⟩

theorem GrantEntity.ofDoc_ok {g : GrantEntity} (h : GrantEntity.ofDoc d = .ok g) :
    Grant.ofDoc d = .ok g.toGrant ∧ g.id = (d.get "id").pyStr ∧
      g.granteeType = (d.find? "grantee_type").getD (.str "") ∧
      g.granteeId = (d.find? "grantee_id").getD (.str "") := by
  unfold GrantEntity.ofDoc at h
  cases hg : Grant.ofDoc d with
  | error e =>
    rw [hg] at h
    cases h
  | ok g' =>
    rw [hg] at h
    cases h
    exact ⟨rfl, rfl, rfl, rfl⟩

theorem find_of_eqStr {k s : String} {v : Val} (h : (d.get k).eqStr s = true) :
    (d.find? k).getD v = .str s := by
  have hs := eqStr_iff.mp h
  unfold Doc.get at hs
  cases hf : d.find? k with
  | none =>
    rw [hf] at hs
    cases hs
  | some w =>
    rw [hf] at hs
    exact hs

def Stored (db : Store) (g : GrantEntity) : Prop :=
  ∃ r, db.vertex.lookup g.id = some r ∧ GrantEntity.ofDoc r.doc.val = .ok g

theorem Stored.unique {g g' : GrantEntity} (h : Stored db g) (h' : Stored db g') (hid : g.id = g'.id) :
    g = g' := by
  obtain ⟨r, hr, hg⟩ := h
  obtain ⟨r', hr', hg'⟩ := h'
  rw [hid, hr'] at hr
  cases hr
  rw [hg] at hg'
  exact Except.ok.inj hg'

theorem stored_of_getGrantById {g : GrantEntity}
    (hn : ∀ id r, db.vertex.lookup id = some r → r.doc.val.get "id" = .str id)
    (h : getGrantById db id = .ok (some g)) : Stored db g ∧ g.id = id := by
  unfold getGrantById docOf at h
  cases hr : db.vertex.lookup id with
  | none =>
    rw [hr] at h
    cases h
  | some r =>
    rw [hr] at h
    simp only [Option.bind_some] at h
    by_cases hempty : r.doc.val.isEmpty = true
    · rw [if_pos hempty] at h
      cases h
    · rw [if_neg hempty] at h
      dsimp only at h
      by_cases hct : (r.doc.val.get "content_type").eqStr grantContentType = true
      · rw [if_pos hct] at h
        obtain ⟨g', hg, h⟩ := bind_ok h
        cases h
        have hid : g.id = id := by
          rw [(GrantEntity.ofDoc_ok hg).2.1, hn id r hr]
          rfl
        exact ⟨⟨r, by rw [hid]; exact hr, hg⟩, hid⟩
      · rw [if_neg hct] at h
        cases h

theorem member_stored {b : String} {ms : List GrantEntity} {m : GrantEntity}
    (hn : ∀ id r, db.vertex.lookup id = some r → r.doc.val.get "id" = .str id)
    (h : listMembers now db b = .ok ms) (hm : m ∈ ms) :
    Stored db m ∧ m.granteeType = .str granteeGrant ∧ m.granteeId = .str b := by
  obtain ⟨d, hd, hg⟩ := (mapM_ok h m).mp hm
  obtain ⟨-, ⟨id, hid, hgrantee⟩, -, htype⟩ := mem_heldDocs.mp hd
  obtain ⟨r, hr, rfl⟩ := grantAt_row hid
  obtain ⟨-, hmid, hmt, hmg⟩ := GrantEntity.ofDoc_ok hg
  refine ⟨⟨r, ?_, hg⟩, ?_, ?_⟩
  · rw [hmid, hn id r hr]
    exact hr
  · rw [hmt]
    exact find_of_eqStr htype
  · rw [hmg]
    exact find_of_eqStr hgrantee

variable {root : GrantEntity}

/-- Every grant below a key has one way down to it: its bundle is named in it, and the key is no member. -/
theorem bundle_unique (hn : ∀ id r, db.vertex.lookup id = some r → r.doc.val.get "id" = .str id)
    (hroot : Stored db root) (hkey : root.granteeType = .str granteeGrantKey) :
    Levels.Unique GrantEntity.id (fun b : GrantEntity => listMembers now db b.id)
      (fun ceiling m => m.maskedBy ceiling) root root := by
  intro m p b m' p' b' h h'
  generalize hq : m :: p = q at h
  -- the root has the type of a key, a member that of a member
  have hapart : ∀ {n m : GrantEntity} {ms : List GrantEntity}, listMembers now db n.id = .ok ms → m ∈ ms →
      root.id ≠ m.id := by
    intro n m ms hk hm hid
    obtain ⟨hst, htype, -⟩ := member_stored hn hk hm
    rw [← hroot.unique hst hid, hkey] at htype
    exact absurd (Val.str.inj htype) (by decide)
  induction h generalizing m p m' p' b' with
  | root =>
    cases hq
    intro hid
    cases h' with
    | root => rfl
    | kid _ hk hm => exact absurd hid (hapart hk hm)
  | @kid n m₁ p₁ ms c hp hk hm ih =>
    cases hq
    intro hid
    cases h' with
    | root => exact absurd hid.symm (hapart hk hm)
    | @kid n' m₂ p₂ ms' c' hp' hk' hm' =>
      obtain ⟨hst, -, hgrantee⟩ := member_stored hn hk hm
      obtain ⟨hst', -, hgrantee'⟩ := member_stored hn hk' hm'
      have hmm := hst.unique hst' hid
      subst hmm
      rw [hgrantee] at hgrantee'
      rw [ih _ _ _ _ _ hp' rfl (Val.str.inj hgrantee')]

/-! ### What a key can do -/

structure IssuerHolds (now : Val → Bool) (db : Store) (out : String → Bool) (user rid : String) (x : Action) :
    Prop where
  named : user ≠ ""
  allowed : ∃ d ∈ resourceGrantDocs now db user rid, ∃ g, GrantEntity.ofDoc d = .ok g ∧ out g.id = false ∧
    g.isAllow = true ∧ g.flag x = true
  undenied : ∀ d ∈ resourceGrantDocs now db user rid, ∀ g, GrantEntity.ofDoc d = .ok g → out g.id = false →
    g.isAllow = false → g.flag x = false

/-- A grant without an issuer stands by itself. -/
def Backed (now : Val → Bool) (db : Store) (out : String → Bool) (g : GrantEntity) (rid : String) (x : Action) :
    Prop :=
  g.grantedBy = "" ∨ IssuerHolds now db out g.grantedBy rid x

/-- Of the grants a key holds by ways that avoid some rows, none denies the action and one allows it. -/
structure KeyMay (now : Val → Bool) (db : Store) (root : GrantEntity) (out : String → Bool) (rid : String)
    (x : Action) : Prop where
  undenied : ∀ p b, KeyHolds now db root p b → (∀ n ∈ p, out n.id = false) → b.resource = some rid →
    b.isDeny = true → b.flag x = false
  allowed : ∃ p b, KeyHolds now db root p b ∧ (∀ n ∈ p, out n.id = false) ∧ b.resource = some rid ∧
    b.isAllow = true ∧ b.flag x = true ∧ Backed now db out b rid x

theorem ofDoc_of_grant {g : Grant} (h : Grant.ofDoc d = .ok g) :
    ∃ e, GrantEntity.ofDoc d = .ok e ∧ e.toGrant = g := by
  unfold GrantEntity.ofDoc
  rw [h]
  exact ⟨_, rfl, rfl⟩

theorem effectiveFlags_iff {user : String} {held : Action → Bool} (h : effectiveFlags now db user rid = .ok held)
    (x : Action) :
    held x = true ↔ IssuerHolds now db (fun _ => false) user rid x := by
  unfold effectiveFlags at h
  by_cases hu : user = ""
  · rw [if_pos hu] at h
    cases h
    exact ⟨fun h => (by cases h), fun h => absurd hu h.named⟩
  · rw [if_neg hu] at h
    obtain ⟨gs, hgs, h⟩ := bind_ok h
    cases h
    have hmem := mapM_ok hgs
    simp only [Bool.and_eq_true, List.any_eq_true, Bool.not_eq_true', List.any_eq_false, not_and,
      Bool.not_eq_true]
    constructor
    · rintro ⟨⟨g, hg, hallow, hflag⟩, hnone⟩
      obtain ⟨d, hd, hdg⟩ := (hmem g).mp hg
      obtain ⟨e, he, rfl⟩ := ofDoc_of_grant hdg
      refine ⟨hu, ⟨d, hd, e, he, rfl, hallow, hflag⟩, ?_⟩
      intro d' hd' g' hg' _ hdeny
      refine hnone g'.toGrant ((hmem _).mpr ⟨d', hd', (GrantEntity.ofDoc_ok hg').1⟩) ?_
      show (!g'.isAllow) = true
      rw [hdeny]
      rfl
    · rintro ⟨-, ⟨d, hd, g, hg, -, hallow, hflag⟩, hnone⟩
      refine ⟨⟨g.toGrant, (hmem _).mpr ⟨d, hd, (GrantEntity.ofDoc_ok hg).1⟩, hallow, hflag⟩, ?_⟩
      intro g' hg' hdeny
      obtain ⟨d', hd', hdg'⟩ := (hmem g').mp hg'
      obtain ⟨e, he, rfl⟩ := ofDoc_of_grant hdg'
      exact hnone d' hd' e he rfl (by simpa [Grant.mask, Mask.isDeny] using hdeny)

theorem effectiveFlags_isOk {user : String} : (∃ held, effectiveFlags now db user rid = .ok held) ↔
    user = "" ∨ ∀ d ∈ resourceGrantDocs now db user rid, ∃ g, GrantEntity.ofDoc d = .ok g := by
  have hdocs : (∃ gs, getActiveGrantsForPrincipalResource now db user rid = .ok gs) ↔
      ∀ d ∈ resourceGrantDocs now db user rid, ∃ g, GrantEntity.ofDoc d = .ok g := by
    unfold getActiveGrantsForPrincipalResource
    rw [mapM_isOk]
    refine forall₂_congr fun d _ => ⟨?_, ?_⟩
    · rintro ⟨g, hg⟩
      obtain ⟨e, he, -⟩ := ofDoc_of_grant hg
      exact ⟨e, he⟩
    · rintro ⟨e, he⟩
      exact ⟨_, (GrantEntity.ofDoc_ok he).1⟩
  rw [← hdocs]
  unfold effectiveFlags
  by_cases hu : user = ""
  · simp [hu]
  · simp only [hu, if_false, false_or]
    cases getActiveGrantsForPrincipalResource now db user rid with
    | error e => exact ⟨fun ⟨_, h⟩ => (by cases h), fun ⟨_, h⟩ => (by cases h)⟩
    | ok gs => exact ⟨fun _ => ⟨gs, rfl⟩, fun _ => ⟨_, rfl⟩⟩

theorem asHeldNow_isOk {g : GrantEntity} : (∃ h, asHeldNow now db g = .ok h) ↔
    ∀ rid, g.resource = some rid → g.grantedBy ≠ "" → g.isAllow = true →
      ∃ held, effectiveFlags now db g.grantedBy rid = .ok held := by
  unfold asHeldNow
  cases hr : g.resource with
  | none => exact ⟨fun _ rid h => (by cases h), fun _ => ⟨g, rfl⟩⟩
  | some rid =>
    dsimp only
    by_cases hby : (g.grantedBy = "" || !g.isAllow) = true
    · rw [if_pos hby]
      refine ⟨fun _ rid' _ hne hallow => ?_, fun _ => ⟨g, rfl⟩⟩
      rw [hallow] at hby
      simp [hne] at hby
    · rw [if_neg hby]
      simp only [Bool.or_eq_true, decide_eq_true_eq, Bool.not_eq_true', not_or, Bool.not_eq_false] at hby
      constructor
      · rintro ⟨h, hh⟩ rid' hrid' _ _
        cases hrid'
        cases hf : effectiveFlags now db g.grantedBy rid with
        | error e =>
          rw [hf] at hh
          cases hh
        | ok held => exact ⟨held, rfl⟩
      · intro h
        obtain ⟨held, hheld⟩ := h rid rfl hby.1 hby.2
        exact ⟨_, by rw [hheld]; rfl⟩

theorem asHeldNow_deny {g h : GrantEntity} (hg : asHeldNow now db g = .ok h) (hdeny : g.isAllow = false) :
    h = g := by
  unfold asHeldNow at hg
  split at hg
  · cases hg
    rfl
  · rw [if_pos (by rw [hdeny]; simp)] at hg
    cases hg
    rfl

theorem asHeldNow_allow {g h : GrantEntity} (hg : asHeldNow now db g = .ok h) (hrid : g.resource = some rid)
    (hallow : g.isAllow = true) (x : Action) :
    h.flag x = true ↔ g.flag x = true ∧ Backed now db (fun _ => false) g rid x := by
  unfold asHeldNow at hg
  rw [hrid, hallow] at hg
  dsimp only at hg
  unfold Backed
  by_cases hby : g.grantedBy = ""
  · rw [hby] at hg
    cases hg
    simp [hby]
  · rw [if_neg (by simp [hby])] at hg
    obtain ⟨held, hf, hg⟩ := bind_ok hg
    cases hg
    rw [← effectiveFlags_iff hf x]
    show (g.flag x && held x) = true ↔ _
    rw [Bool.and_eq_true]
    simp [hby]

theorem asHeldNow_fields {g h : GrantEntity} (hg : asHeldNow now db g = .ok h) :
    h.resource = g.resource ∧ h.effect = g.effect ∧ h.id = g.id ∧ ∀ a, h.flag a = true → g.flag a = true := by
  unfold asHeldNow at hg
  split at hg
  · cases hg
    exact ⟨rfl, rfl, rfl, fun _ h => h⟩
  · split_ifs at hg
    · cases hg
      exact ⟨rfl, rfl, rfl, fun _ h => h⟩
    · rename_i rid _ _
      obtain ⟨held, hf, hg⟩ := bind_ok hg
      cases hg
      refine ⟨rfl, rfl, rfl, fun a ha => ?_⟩
      exact (Bool.and_eq_true _ _ ▸ ha : g.flag a = true ∧ held a = true).1

theorem asHeldNow_expiresAt {g h : GrantEntity} (hg : asHeldNow now db g = .ok h) : h.expiresAt = g.expiresAt := by
  unfold asHeldNow at hg
  split at hg
  · cases hg
    rfl
  · split_ifs at hg
    · cases hg
      rfl
    · rename_i rid _ _
      obtain ⟨held, hf, hg⟩ := bind_ok hg
      cases hg
      rfl

/-- **What a key resolves to.** -/
theorem mem_keyResolve (hn : ∀ id r, db.vertex.lookup id = some r → r.doc.val.get "id" = .str id)
    (hroot : Stored db root) (hkey : root.granteeType = .str granteeGrantKey) {gs : List GrantEntity}
    (h : keyResolve now db root = .ok gs) (g : GrantEntity) :
    g ∈ gs ↔ ∃ p b, KeyHolds now db root p b ∧ b.resource.isSome = true ∧ asHeldNow now db b = .ok g := by
  unfold keyResolve at h
  cases hw : bundleWalk now db root with
  | error e =>
    rw [hw] at h
    cases h
  | ok found =>
    rw [hw] at h
    have hfound := Levels.mem_expand_iff (bundle_unique hn hroot hkey) hw
    rw [mapM_ok h g]
    constructor
    · rintro ⟨⟨m, b⟩, hmb, hg⟩
      obtain ⟨hmb, hres⟩ := List.mem_filter.mp hmb
      obtain ⟨p, hp, hd⟩ := (hfound m b).mp hmb
      exact ⟨m :: p, b, ⟨hp, by simpa using hd⟩, hres, hg⟩
    · rintro ⟨p, b, hh, hres, hg⟩
      cases p with
      | nil => cases hh.path
      | cons m p =>
        exact ⟨(m, b), List.mem_filter.mpr ⟨(hfound m b).mpr ⟨p, hh.path, by simpa using hh.depth⟩, hres⟩, hg⟩

theorem keyResolve_isOk (hn : ∀ id r, db.vertex.lookup id = some r → r.doc.val.get "id" = .str id)
    (hroot : Stored db root) (hkey : root.granteeType = .str granteeGrantKey) :
    (∃ gs, keyResolve now db root = .ok gs) ↔
      (∀ n p b, BundlePath now db root (n :: p) b → p.length < maxBundleDepth →
        ∃ ms, listMembers now db n.id = .ok ms) ∧
      ∀ p b, KeyHolds now db root p b → b.resource.isSome = true → ∃ g, asHeldNow now db b = .ok g := by
  have hu := @bundle_unique now db root hn hroot hkey
  rw [← Levels.expand_isOk hu maxBundleDepth]
  unfold keyResolve bundleWalk
  cases hw : Levels.expand GrantEntity.id (fun b => listMembers now db b.id)
    (fun ceiling m => m.maskedBy ceiling) maxBundleDepth root root with
  | error e => exact ⟨fun ⟨_, h⟩ => (by cases h), fun ⟨⟨_, h⟩, _⟩ => (by cases h)⟩
  | ok found =>
    have hfound := Levels.mem_expand_iff hu hw
    dsimp only
    rw [mapM_isOk]
    constructor
    · intro h
      refine ⟨⟨found, rfl⟩, ?_⟩
      intro p b hb hres
      cases p with
      | nil => cases hb.path
      | cons m p =>
        exact h (m, b) (List.mem_filter.mpr ⟨(hfound m b).mpr ⟨p, hb.path, by simpa using hb.depth⟩, hres⟩)
    · rintro ⟨-, h⟩ ⟨m, b⟩ he
      obtain ⟨he, hres⟩ := List.mem_filter.mp he
      obtain ⟨p, hp, hd⟩ := (hfound m b).mp he
      exact h (m :: p) b ⟨hp, by simpa using hd⟩ hres

theorem isDeny_isAllow {g : Grant} (h : g.isDeny = true) : g.isAllow = false := by
  simp only [Grant.isDeny, Grant.isAllow, decide_eq_true_eq, decide_eq_false_iff_not] at h ⊢
  rw [h]
  decide

theorem keyAuthorizes_iff (hn : ∀ id r, db.vertex.lookup id = some r → r.doc.val.get "id" = .str id)
    (hroot : Stored db root) (hkey : root.granteeType = .str granteeGrantKey) {gs : List GrantEntity}
    (h : keyResolve now db root = .ok gs) (rid : String) (x : Action) :
    keyAuthorizes gs rid x = true ↔ KeyMay now db root (fun _ => false) rid x := by
  have hmem := mem_keyResolve hn hroot hkey h
  unfold keyAuthorizes
  simp only [Bool.and_eq_true, List.any_eq_true, Bool.not_eq_true', List.any_eq_false, List.mem_filter,
    decide_eq_true_eq, not_and, Bool.not_eq_true, and_imp]
  constructor
  · rintro ⟨hnone, g, ⟨hg, hres⟩, hallow, hflag⟩
    refine ⟨?_, ?_⟩
    · intro p b hb _ hbr hdeny
      have hallow' := isDeny_isAllow hdeny
      obtain ⟨g', hg'⟩ := asHeldNow_isOk.mpr fun rid _ _ (h : b.isAllow = true) =>
        absurd h (by rw [hallow']; decide)
      cases asHeldNow_deny hg' hallow'
      exact hnone b ((hmem b).mpr ⟨p, b, hb, by rw [hbr]; rfl, hg'⟩) hbr hdeny
    · obtain ⟨p, b, hb, -, hg'⟩ := (hmem g).mp hg
      obtain ⟨hr, he, -, -⟩ := asHeldNow_fields hg'
      rw [hr] at hres
      have hba : b.isAllow = true := by
        unfold Grant.isAllow at hallow ⊢
        rw [← he]
        exact hallow
      obtain ⟨hbf, hback⟩ := (asHeldNow_allow hg' hres hba x).mp hflag
      exact ⟨p, b, hb, fun _ _ => rfl, hres, hba, hbf, hback⟩
  · rintro ⟨hnone, p, b, hb, -, hbr, hba, hbf, hback⟩
    refine ⟨?_, ?_⟩
    · intro g hg hres hdeny
      obtain ⟨p', b', hb', -, hg'⟩ := (hmem g).mp hg
      obtain ⟨hr, he, -, hflag⟩ := asHeldNow_fields hg'
      have hbd : b'.isDeny = true := by
        unfold Grant.isDeny at hdeny ⊢
        rw [← he]
        exact hdeny
      by_contra hf
      have := hnone p' b' hb' (fun _ _ => rfl) (by rw [← hr]; exact hres) hbd
      rw [hflag x (by simpa using hf)] at this
      cases this
    · have hsome : b.resource.isSome = true := by
        rw [hbr]
        rfl
      obtain ⟨g, hgb⟩ := ((keyResolve_isOk hn hroot hkey).mp ⟨gs, h⟩).2 p b hb hsome
      have hg := (hmem g).mpr ⟨p, b, hb, hsome, hgb⟩
      obtain ⟨hr, he, -, -⟩ := asHeldNow_fields hgb
      refine ⟨g, ⟨hg, by rw [hr]; exact hbr⟩, ?_, (asHeldNow_allow hgb hbr hba x).mpr ⟨hbf, hback⟩⟩
      unfold Grant.isAllow at hba ⊢
      rw [he]
      exact hba

end Spec

/-! ### One field of a grant -/

def setField (db : Store) (id k : String) (v : Val) : Store :=
  match db.vertex.lookup id with
  | none => db
  | some r => db.patchVertex id r (jsonSet r.doc k v)

theorem setField_lookup {db : Store} {k : String} {v : Val} {r : VRow} (h : db.vertex.lookup id = some r)
    (id' : String) : (setField db id k v).vertex.lookup id' =
      if id' = id then some { r with doc := jsonSet r.doc k v } else db.vertex.lookup id' := by
  unfold setField
  rw [h]
  exact Table.lookup_insert_of

def GrantLedger.setField (L : GrantLedger) (id k : String) (v : Val) (hk : "id" ≠ k) : GrantLedger where
  db := Mantle.setField L.db id k v
  named := by
    intro id' r hr
    cases hb : L.db.vertex.lookup id with
    | none =>
      unfold Mantle.setField at hr
      rw [hb] at hr
      exact L.named id' r hr
    | some r₀ =>
      rw [setField_lookup hb] at hr
      split_ifs at hr with hid
      · cases hr
        subst hid
        show (jsonSet r₀.doc k v).val.get "id" = _
        rw [jsonSet_val, Doc.get_set_of_ne _ _ hk]
        exact L.named id' r₀ hb
      · exact L.named id' r hr

def bundleDoc (id kind grantee rid effect : String) : Doc :=
  [("id", .str id), ("content_type", .str grantContentType), ("grantee_type", .str kind),
   ("grantee_id", .str grantee), ("granted_by", .str "u"), ("resource_id", .str rid),
   ("state", .str "active"), ("effect", .str effect), ("can_read", .bool true)]

def bundledNode : Node :=
  hereNode.run
    [.putArtifact (grantDoc "g" "u" "r" "allow") true false,
     .putArtifact (bundleDoc "k" granteeGrantKey "hash" "" "allow") true false,
     .putArtifact (bundleDoc "m" granteeGrant "k" "r" "allow") true false,
     .putArtifact (bundleDoc "b" granteeGrant "k" "" "allow") true false,
     .putArtifact (bundleDoc "d" granteeGrant "b" "r" "deny") true false]

def bundledLedger : GrantLedger where
  db := bundledNode.db
  named := by
    have h : bundledNode.db.vertex.toPairs.all (fun e => (e.2.doc.val.get "id").eqStr e.1) = true := by
      decide +kernel
    intro id r hr
    exact eqStr_iff.mp (List.all_eq_true.mp h (id, r) (Table.mem_toPairs.mpr hr))

end Mantle
