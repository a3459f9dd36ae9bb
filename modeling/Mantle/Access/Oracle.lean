import Mantle.Access.Keys
import Mantle.Access.Scope

/-!
# Mantle.Access.Oracle — who is issued a key (`search/mantle/oracle.py`)

`authorized` walks up from a collection, and asks for a principal by the origin roots of its grants;
`resolve_authorized_contexts` enumerates downward.
-/

namespace Mantle

namespace Oracle

variable {a : Action} {e : String × String} {grants : List GrantEntity} {principal : String}

variable {pairs : List (String × String)}

/-! ### The verifier -/

def allowed (grants : List GrantEntity) (a : Action) : List String :=
  seedsOf (grants.map GrantEntity.toGrant) fun m => m.allows a

/-- The resources grants that are no allow name the action on. -/
def denied (grants : List GrantEntity) (a : Action) : List String :=
  seedsOf (grants.map GrantEntity.toGrant) fun m => m.isDeny && m.carries a

section Verifier

variable (now : Val → Bool) (db : Store) (requester kind : String)

/-- `_reaches`.  No mask carries an unknown action. -/
def reaches (rid action : String) : Except AccessErr Bool :=
  (grantsFor now db requester kind).map fun grants =>
    match Action.ofName action with
    | none => false
    | some a =>
      if (allowed grants a).isEmpty then false
      else Mantle.reaches db a (allowed grants a) (denied grants a) rid none

/-- `_granted_roots`: an unreadable chain is passed over. -/
def grantedRoots (action : String) : Except AccessErr (List String) :=
  (grantsFor now db requester kind).map fun grants =>
    match Action.ofName action with
    | none => []
    | some a =>
      ((allowed grants a).filter fun r => decide (r ∉ denied grants a)).filterMap fun r =>
        (getOriginRoot db r).toOption

def rootsInclude (principal action : String) : Except AccessErr Bool :=
  (grantedRoots now db requester kind action).map fun roots => decide (principal ∈ roots)

/-- `LightConeGrantVerifier.authorized`; an empty collection or artifact is none. -/
def authorized (principal collection action artifact : String) : Except AccessErr Bool :=
  if requester = principal then .ok true
  else if collection ≠ "" then
    match reaches now db requester kind collection action with
    | .error e => .error e
    | .ok true => .ok true
    | .ok false => if artifact = "" then .ok false else reaches now db requester kind artifact action
  else rootsInclude now db requester kind principal action

end Verifier

/-! ### The pairs -/

def Filed (doc : Doc) (c : String) : Prop :=
  let cid := (doc.get "collection_id").orElse ((doc.get "_key").orElse (doc.get "id"))
  cid.truthy = true ∧ cid.pyStr = c

section Spec

variable {now : Val → Bool} {db : Store} {requester kind action : String}

theorem read_iff {P : Action → List GrantEntity → Prop} :
    (∃ a' grants', some a = some a' ∧ (Except.ok grants : Except AccessErr _) = .ok grants' ∧ P a' grants') ↔
      P a grants := by
  constructor
  · rintro ⟨a', grants', ha, hg, h⟩
    cases ha
    cases hg
    exact h
  · exact fun h => ⟨a, grants, rfl, rfl, h⟩

theorem reaches_true_iff {rid : String} : reaches now db requester kind rid action = .ok true ↔
    ∃ a grants, Action.ofName action = some a ∧ grantsFor now db requester kind = .ok grants ∧
      AllowFirst (· ∈ allowed grants a) (· ∈ denied grants a) (originChain db rid a none).items := by
  unfold reaches
  cases hg : grantsFor now db requester kind with
  | error e => exact ⟨fun h => (by cases h), fun ⟨_, _, _, h, _⟩ => (by cases h)⟩
  | ok grants =>
    cases ha : Action.ofName action with
    | none => exact ⟨fun h => (by cases h), fun ⟨_, _, h, _⟩ => (by cases h)⟩
    | some a =>
      rw [read_iff]
      show Except.ok _ = Except.ok true ↔ _
      rw [Except.ok.injEq, ← reaches_iff]
      dsimp only
      by_cases hempty : (allowed grants a).isEmpty = true
      · rw [if_pos hempty, reaches_iff]
        rw [List.isEmpty_iff] at hempty
        rw [hempty]
        constructor
        · intro h
          cases h
        · rintro ⟨pre, r, post, -, hr, -⟩
          cases hr
      · rw [if_neg hempty]

theorem rootsInclude_true_iff :
    rootsInclude now db requester kind principal action = .ok true ↔
      ∃ a grants, Action.ofName action = some a ∧ grantsFor now db requester kind = .ok grants ∧
        ∃ r ∈ allowed grants a, r ∉ denied grants a ∧ getOriginRoot db r = .ok principal := by
  unfold rootsInclude grantedRoots
  cases hg : grantsFor now db requester kind with
  | error e => exact ⟨fun h => (by cases h), fun ⟨_, _, _, h, _⟩ => (by cases h)⟩
  | ok grants =>
    cases ha : Action.ofName action with
    | none =>
      show Except.ok (decide (principal ∈ [])) = Except.ok true ↔ _
      simp
    | some a =>
      rw [read_iff]
      show Except.ok (decide (principal ∈ List.filterMap _ _)) = Except.ok true ↔ _
      simp only [Except.ok.injEq, decide_eq_true_eq, List.mem_filterMap, List.mem_filter]
      constructor
      · rintro ⟨r, ⟨hr, hd⟩, hroot⟩
        refine ⟨r, hr, hd, ?_⟩
        cases ho : getOriginRoot db r with
        | error e =>
          rw [ho] at hroot
          cases hroot
        | ok root =>
          rw [ho] at hroot
          cases hroot
          rfl
      · rintro ⟨r, hr, hd, hroot⟩
        exact ⟨r, ⟨hr, hd⟩, by rw [hroot]; rfl⟩

end Spec

/-! ### Two stores -/

/-- A collection in a collection; a user is allowed the inner one and denied the outer. -/
def deniedAboveNode : Node :=
  hereNode.run
    [.putArtifact [("id", .str "top"), ("content_type", .str collectionContentType)] true false,
     .putArtifact [("id", .str "c"), ("content_type", .str collectionContentType),
       ("collection_id", .str "top")] true false,
     .putArtifact (grantDoc "g" "u" "c" "allow") true false,
     .putArtifact (grantDoc "d" "u" "top" "deny") true false]

end Oracle

end Mantle
