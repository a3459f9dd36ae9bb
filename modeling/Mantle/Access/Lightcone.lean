import Mantle.Access.Context
import Mantle.Access.Grants

/-!
# Mantle.Access.Lightcone — what a principal's grants reach

The resources a user's grants allow with everything below them, less those they deny with everything below.
-/

namespace Mantle

variable {grants : List Grant}

/-! ### The grants, as relations -/

section Ledger

variable (now : Val → Bool) (db : Store) (p : String) (a : Action)

/-- A user grant of the principal allows the action on the resource. -/
def HoldsAllow (rid : String) : Prop :=
  ∃ d ∈ userGrantDocs now db p, ∃ g, Grant.ofDoc d = .ok g ∧ g.resource = some rid ∧
    g.mask.allows a = true

/-- A user grant of the principal names the action on the resource and is no allow. -/
def HoldsDeny (rid : String) : Prop :=
  ∃ d ∈ userGrantDocs now db p, ∃ g, Grant.ofDoc d = .ok g ∧ g.resource = some rid ∧
    g.mask.isDeny = true ∧ g.mask.carries a = true

def BelowAllow (x : String) : Prop := ∃ s, HoldsAllow now db p a s ∧ Below db a s x

/-- The id lies below a resource the principal is denied. -/
def BelowDeny (x : String) : Prop := ∃ s, HoldsDeny now db p a s ∧ Below db a s x

end Ledger

/-! ### The resolver -/

/-- The resources of grants whose mask passes a test. -/
def seedsOf (grants : List Grant) (test : Mask → Bool) : List String :=
  grants.filterMap fun g => g.resource.bind fun rid => if test g.mask then some rid else none

def subtractDenied (db : Store) (a : Action) (granted denied : List String) :
    Except AccessErr (List String) :=
  if denied.isEmpty then .ok granted
  else
    (listOriginDescendants db denied a).map fun below =>
      granted.filter fun x => decide (x ∉ denied ++ below)

/-- `LightConeResolver.resolve`, for a user principal. -/
def resolve (now : Val → Bool) (db : Store) (p action : String) : Except AccessErr (List String) :=
  match Action.ofName action with
  | none => .ok []
  | some a => do
    let grants ← getActiveGrantsForGrantee now db p
    let grantedIds := seedsOf grants fun m => m.allows a
    let deniedIds := seedsOf grants fun m => m.isDeny && m.carries a
    if grantedIds.isEmpty then .ok []
    else do
      let below ← listOriginDescendants db grantedIds a
      let granted ← subtractDenied db a (grantedIds ++ below) deniedIds
      let context ← reach db granted a (some granted) (Mask.ofNames [a.name]) defaultMaxDepth
        defaultMaxNodes
      .ok (granted ++ context.ids.filter fun x => decide (x ∈ granted))

/-- The cone of a list of grants: what the resolver makes of them, whoever holds them. -/
def cone (db : Store) (a : Action) (grants : List Grant) : Except AccessErr (List String) := do
  let grantedIds := seedsOf grants fun m => m.allows a
  let deniedIds := seedsOf grants fun m => m.isDeny && m.carries a
  if grantedIds.isEmpty then .ok []
  else do
    let below ← listOriginDescendants db grantedIds a
    let granted ← subtractDenied db a (grantedIds ++ below) deniedIds
    let context ← reach db granted a (some granted) (Mask.ofNames [a.name]) defaultMaxDepth
      defaultMaxNodes
    .ok (granted ++ context.ids.filter fun x => decide (x ∈ granted))

theorem resolve_eq_cone (now : Val → Bool) (db : Store) (p : String) (a : Action) :
    resolve now db p a.name = (getActiveGrantsForGrantee now db p).bind (cone db a) := by
  unfold resolve
  rw [Action.ofName_name]
  rfl

theorem mem_seedsOf {test : Mask → Bool} {rid : String} :
    rid ∈ seedsOf grants test ↔ ∃ g ∈ grants, g.resource = some rid ∧ test g.mask = true := by
  unfold seedsOf
  simp only [List.mem_filterMap, Option.bind_eq_some_iff]
  constructor
  · rintro ⟨g, hg, r, hr, h⟩
    split_ifs at h with ht
    cases h
    exact ⟨g, hg, hr, ht⟩
  · rintro ⟨g, hg, hr, ht⟩
    exact ⟨g, hg, rid, hr, by rw [if_pos ht]⟩

section Spec

variable {now : Val → Bool} {db : Store} {p : String} {a : Action}

theorem mem_allowSeeds (h : getActiveGrantsForGrantee now db p = .ok grants) (rid : String) :
    rid ∈ seedsOf grants (fun m => m.allows a) ↔ HoldsAllow now db p a rid := by
  rw [mem_seedsOf]
  constructor
  · rintro ⟨g, hg, hr, ha⟩
    obtain ⟨d, hd, hgd⟩ := (mapM_ok h g).mp hg
    exact ⟨d, hd, g, hgd, hr, ha⟩
  · rintro ⟨d, hd, g, hgd, hr, ha⟩
    exact ⟨g, (mapM_ok h g).mpr ⟨d, hd, hgd⟩, hr, ha⟩

theorem mem_denySeeds (h : getActiveGrantsForGrantee now db p = .ok grants) (rid : String) :
    rid ∈ seedsOf grants (fun m => m.isDeny && m.carries a) ↔ HoldsDeny now db p a rid := by
  rw [mem_seedsOf]
  simp only [Bool.and_eq_true]
  constructor
  · rintro ⟨g, hg, hr, ha⟩
    obtain ⟨d, hd, hgd⟩ := (mapM_ok h g).mp hg
    exact ⟨d, hd, g, hgd, hr, ha⟩
  · rintro ⟨d, hd, g, hgd, hr, ha⟩
    exact ⟨g, (mapM_ok h g).mpr ⟨d, hd, hgd⟩, hr, ha⟩

theorem mem_subtractDenied {granted denied out : List String}
    (h : subtractDenied db a granted denied = .ok out) (x : String) :
    x ∈ out ↔ x ∈ granted ∧ ¬∃ s ∈ denied, Below db a s x := by
  unfold subtractDenied at h
  split_ifs at h with hd
  · cases h
    rw [List.isEmpty_iff] at hd
    simp [hd]
  · obtain ⟨below, hb, h⟩ := bind_ok h
    cases h
    rw [List.mem_filter, ← mem_descendants_iff hb x]
    simp

/-- **What the cone holds.** -/
theorem mem_cone_iff {ids : List String} (h : cone db a grants = .ok ids) (x : String) :
    x ∈ ids ↔ (∃ s ∈ seedsOf grants (fun m => m.allows a), Below db a s x) ∧
      ¬∃ s ∈ seedsOf grants (fun m => m.isDeny && m.carries a), Below db a s x := by
  unfold cone at h
  simp only [bind, Except.bind] at h
  split_ifs at h with hempty
  · cases h
    rw [List.isEmpty_iff] at hempty
    rw [hempty]
    simp
  · cases hb : listOriginDescendants db (seedsOf grants fun m => m.allows a) a with
    | error e =>
      rw [hb] at h
      cases h
    | ok below =>
      rw [hb] at h
      dsimp only at h
      cases hs : subtractDenied db a ((seedsOf grants fun m => m.allows a) ++ below)
          (seedsOf grants fun m => m.isDeny && m.carries a) with
      | error e =>
        rw [hs] at h
        cases h
      | ok granted =>
        rw [hs] at h
        dsimp only at h
        rw [reach_self] at h
        cases h
        simp only [emptyReach, List.filter_nil, List.append_nil]
        rw [mem_subtractDenied hs, List.mem_append, mem_descendants_iff hb]

theorem mem_resolve_iff {ids : List String} (h : resolve now db p a.name = .ok ids) (x : String) :
    x ∈ ids ↔ BelowAllow now db p a x ∧ ¬BelowDeny now db p a x := by
  rw [resolve_eq_cone] at h
  obtain ⟨grants, hg, h⟩ := bind_ok h
  rw [mem_cone_iff h]
  unfold BelowAllow BelowDeny
  simp only [mem_allowSeeds hg, mem_denySeeds hg]

end Spec

end Mantle
