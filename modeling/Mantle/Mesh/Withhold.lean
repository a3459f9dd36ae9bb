import Mathlib.Data.String.Basic
import Mantle.Base.Paging
import Mantle.Access.Commons
import Mantle.Mesh.Apply

/-!
# Mantle.Mesh.Withhold — what the mesh does not publish (`_private_set`)

The members of a withheld collection are enumerated by the `origin_root` column; the access decision grounds an
artifact by its `collection_id`.
-/

namespace Mantle

open Paging Relation

variable {now : Val → Bool} {root x : String}

/-! ### The enumeration -/

def gatedPage : ℕ := 5000

/-- The ids whose row names this containment root, in order. -/
def memberIds (db : Store) (root : String) : List String :=
  ((sortedVertices db).filter fun v => v.2.originRoot.eqStr root).map Prod.fst

def pageByOriginRoot (db : Store) (root after : String) (limit : ℕ) : List String :=
  page (memberIds db root) (some after) limit

/-- What was found so far, how many members were read, and whether that is all. -/
structure Enumeration where
  withheld : List String
  seen : ℕ
  exhaustive : Bool

section Enumerate

variable (db : Store) (publicReach : List String) (cap : ℕ)

/-- Every full page moves the cursor past its members, so a fuel of one more than the number of members never runs out.
-/
def memberPages (root : String) : ℕ → String → Enumeration → Enumeration
  | 0, _, e => e
  | fuel + 1, after, e =>
    let page := pageByOriginRoot db root after gatedPage
    match page.getLast? with
    | none => e
    | some last =>
      let e' : Enumeration := { e with
        withheld := e.withheld ++ page.filter fun m => decide (m ∉ publicReach)
        seen := e.seen + page.length }
      if e'.seen > cap then { e' with exhaustive := false }
      else if page.length < gatedPage then e'
      else memberPages root fuel last e'

/-- The gated collections, one after the other. -/
def withholdRoots : List String → Enumeration → Enumeration
  | [], e => e
  | root :: roots, e =>
    let e' := memberPages db publicReach cap root ((memberIds db root).length + 1) ""
      { e with withheld := e.withheld ++ [root] }
    if e'.exhaustive then withholdRoots roots e' else e'

end Enumerate

def privateCap : ℕ := 200000

/-- `_private_set`: the withheld ids, and whether they are all. -/
def privateSet (now : Val → Bool) (db : Store) : List String × Bool :=
  let publicReach := reachableCollections now db publicPrincipal
  let e := withholdRoots db publicReach privateCap
    ((gatedCollections now db).dedup.filter fun root => decide (root ∉ publicReach)) ⟨[], 0, true⟩
  (e.withheld, e.exhaustive)

/-! ### What it finds -/

section Spec

variable {db : Store} {publicReach : List String} {cap : ℕ}

theorem mem_memberIds : x ∈ memberIds db root ↔
    ∃ row, db.vertex.lookup x = some row ∧ row.originRoot.eqStr root = true := by
  unfold memberIds
  simp only [List.mem_map, List.mem_filter, Prod.exists, mem_sortedVertices]
  constructor
  · rintro ⟨_, row, ⟨hrow, hroot⟩, rfl⟩
    exact ⟨row, hrow, hroot⟩
  · rintro ⟨row, hrow, hroot⟩
    exact ⟨x, row, ⟨hrow, hroot⟩, rfl⟩

theorem memberIds_sorted (db : Store) (root : String) : (memberIds db root).Pairwise (· < ·) :=
  (Table.sorted_keys db.vertex).sublist (List.Sublist.map _ List.filter_sublist)

theorem memberPages_spec :
    ∀ (fuel : ℕ) (after : String) (e : Enumeration),
      (beyond (memberIds db root) (some after)).length < fuel →
      (memberPages db publicReach cap root fuel after e).exhaustive = true →
      ∀ x, x ∈ (memberPages db publicReach cap root fuel after e).withheld ↔
        x ∈ e.withheld ∨ x ∈ beyond (memberIds db root) (some after) ∧ x ∉ publicReach
  | 0, _, _, hfuel, _, _ => absurd hfuel (Nat.not_lt_zero _)
  | fuel + 1, after, e, hfuel, hexh, x => by
    rw [memberPages] at hexh ⊢
    dsimp only at hexh ⊢
    cases hlast : (pageByOriginRoot db root after gatedPage).getLast? with
    | none =>
      have hnil : beyond (memberIds db root) (some after) = [] := by
        rw [List.getLast?_eq_none_iff] at hlast
        have hshort : (page (memberIds db root) (some after) gatedPage).length < gatedPage := by
          rw [show page (memberIds db root) (some after) gatedPage = [] from hlast]
          decide
        rw [← page_eq_of_short hshort]
        exact hlast
      simp [hnil]
    | some last =>
      rw [hlast] at hexh
      dsimp only at hexh ⊢
      by_cases hcap : e.seen + (pageByOriginRoot db root after gatedPage).length > cap
      · rw [if_pos hcap] at hexh
        cases hexh
      · rw [if_neg hcap] at hexh ⊢
        by_cases hshort : (pageByOriginRoot db root after gatedPage).length < gatedPage
        · rw [if_pos hshort]
          have hall : pageByOriginRoot db root after gatedPage = beyond (memberIds db root) (some after) :=
            page_eq_of_short hshort
          rw [hall, List.mem_append, List.mem_filter]
          simp
        · rw [if_neg hshort] at hexh ⊢
          have hless := beyond_last_length (memberIds_sorted db root) hlast (show 0 < gatedPage by decide)
          rw [memberPages_spec fuel last _ (by omega) hexh x, List.mem_append, List.mem_filter,
            ← page_append_beyond (memberIds_sorted db root) hlast, List.mem_append, decide_eq_true_eq,
            or_assoc, ← or_and_right]
          rfl

theorem withholdRoots_spec : ∀ (roots : List String) (e : Enumeration), e.exhaustive = true →
    (withholdRoots db publicReach cap roots e).exhaustive = true →
    ∀ x, x ∈ (withholdRoots db publicReach cap roots e).withheld ↔ x ∈ e.withheld ∨
      ∃ root ∈ roots, x = root ∨ x ∈ beyond (memberIds db root) (some "") ∧ x ∉ publicReach
  | [], e, _, _, x => by simp [withholdRoots]
  | root :: roots, e, he, hexh, x => by
    rw [withholdRoots] at hexh ⊢
    by_cases hroot : (memberPages db publicReach cap root ((memberIds db root).length + 1) ""
        { e with withheld := e.withheld ++ [root] }).exhaustive = true
    · rw [if_pos hroot] at hexh ⊢
      have hfuel : (beyond (memberIds db root) (some "")).length < (memberIds db root).length + 1 :=
        Nat.lt_succ_of_le (beyond_sublist _ _).length_le
      rw [withholdRoots_spec roots _ hroot hexh x, memberPages_spec _ _ _ hfuel hroot x, List.mem_append,
        List.mem_singleton, List.exists_mem_cons_iff, or_assoc, or_assoc, ← or_assoc (a := x = root)]
    · rw [if_neg hroot] at hexh
      exact absurd hexh hroot

/-- What is withheld: the gated collections the commons do not reach, and what names one as its
containment root. -/
def Withheld (now : Val → Bool) (db : Store) (x : String) : Prop :=
  ∃ root ∈ gatedCollections now db, root ∉ reachableCollections now db publicPrincipal ∧
    (x = root ∨ (∃ row, db.vertex.lookup x = some row ∧ row.originRoot.eqStr root = true) ∧
      "" < x ∧ x ∉ reachableCollections now db publicPrincipal)

theorem mem_privateSet {withheld : List String} (h : privateSet now db = (withheld, true)) (x : String) :
    x ∈ withheld ↔ Withheld now db x := by
  unfold Withheld
  unfold privateSet at h
  obtain ⟨rfl, hexh⟩ := Prod.mk.inj h
  rw [withholdRoots_spec _ _ rfl hexh x]
  simp only [List.not_mem_nil, false_or, List.mem_filter, List.mem_dedup, decide_eq_true_eq,
    mem_beyond_some, mem_memberIds, and_assoc]

theorem withheld_congr {db' : Store} (hgrants : ∀ id, grantAt db' id = grantAt db id)
    (hstep : CollectionStep db' = CollectionStep db)
    (hroot : (db'.vertex.lookup x).map (fun r => r.originRoot) =
      (db.vertex.lookup x).map fun r => r.originRoot) : Withheld now db' x ↔ Withheld now db x := by
  have hgated : ∀ x, x ∈ gatedCollections now db' ↔ x ∈ gatedCollections now db := by
    intro x
    unfold gatedCollections resourceCone
    simp only [List.mem_flatMap, List.mem_filter, mem_activeGrantDocs, hgrants, mem_collectionsBelow,
      hstep]
  have hreach : ∀ x, x ∈ reachableCollections now db' publicPrincipal ↔
      x ∈ reachableCollections now db publicPrincipal := by
    intro x
    rw [mem_reachableCollections (by decide), mem_reachableCollections (by decide)]
    simp only [mem_activeCollections_congr hgrants, hstep]
  have hcol : ∀ (db : Store) (root : String),
      (∃ row, db.vertex.lookup x = some row ∧ row.originRoot.eqStr root = true) ↔
        ∃ v, (db.vertex.lookup x).map (fun r => r.originRoot) = some v ∧ v.eqStr root = true := by
    intro db root
    cases db.vertex.lookup x <;> simp
  unfold Withheld
  simp only [hgated, hreach, hcol, hroot]

end Spec

/-! ### Against the access decision -/

/-- It is a gated collection itself, or its row names one the commons do not reach as its containment root. -/
def RootGated (now : Val → Bool) (db : Store) (x : String) : Prop :=
  x ∈ gatedCollections now db ∨ "" < x ∧ ∃ row, db.vertex.lookup x = some row ∧
    ∃ root ∈ gatedCollections now db, root ∉ reachableCollections now db publicPrincipal ∧
      row.originRoot.eqStr root = true

theorem isPublic_false_iff {db : Store} {doc : Doc} :
    isPublic now db doc = false ↔ ∃ g, groundingOf doc = some g ∧ g ∈ gatedCollections now db ∧
      isMadePublic now db doc = false := by
  unfold isPublic
  cases groundingOf doc with
  | none => simp
  | some g => simp

/-- **When nothing private is published**: an artifact that is not public is withheld exactly when its containment root
is gated. -/
theorem private_withheld_iff {now : Val → Bool} {db : Store} {withheld : List String}
    (h : privateSet now db = (withheld, true)) {x : String} {doc : Doc} (hx : IsArtifact db x doc) :
    (isPublic now db doc = false → x ∈ withheld) ↔
      ((∃ g, groundingOf doc = some g ∧ g ∈ gatedCollections now db) →
        isMadePublic now db doc = false → RootGated now db x) := by
  have hmem := mem_privateSet h x
  -- what is not made public the commons do not reach
  have hout : isMadePublic now db doc = false →
      x ∉ reachableCollections now db publicPrincipal := by
    intro hno hin
    rw [isMadePublic_eq] at hno
    unfold inCone at hno
    rw [hx.2] at hno
    simp [hin] at hno
  have hgated : isMadePublic now db doc = false → (x ∈ withheld ↔ RootGated now db x) := by
    intro hno
    rw [hmem]
    unfold Withheld RootGated
    constructor
    · rintro ⟨root, hroot, hfree, rfl | ⟨⟨row, hrow, hr⟩, hne, -⟩⟩
      · exact .inl hroot
      · exact .inr ⟨hne, row, hrow, root, hroot, hfree, hr⟩
    · rintro (hroot | ⟨hne, row, hrow, root, hroot, hfree, hr⟩)
      · exact ⟨x, hroot, hout hno, .inl rfl⟩
      · exact ⟨root, hroot, hfree, .inr ⟨⟨row, hrow, hr⟩, hne, hout hno⟩⟩
  rw [isPublic_false_iff]
  constructor
  · rintro himp ⟨g, hg, hin⟩ hno
    exact (hgated hno).mp (himp ⟨g, hg, hin, hno⟩)
  · rintro himp ⟨g, hg, hin, hno⟩
    exact (hgated hno).mpr (himp ⟨g, hg, hin⟩ hno)

/-- `_stamp_origin_root`: inherited from the container's document, else found by a walk. -/
def stampOriginRoot (db : Store) (doc : Doc) : Doc :=
  let cid := doc.get "collection_id"
  if (doc.get "origin_root").truthy then doc
  else if !cid.truthy then doc.set "origin_root" (doc.get "id")
  else
    let inherited := (artifactOr db cid.pyStr).get "origin_root"
    if inherited.truthy then doc.set "origin_root" inherited
    else
      match getOriginRoot db cid.pyStr with
      | .ok root => doc.set "origin_root" (.str root)
      | .error _ => doc

/-- `create_artifact`. -/
def Node.create (n : Node) (doc : Doc) : Node :=
  n.after (.putArtifact (stampOriginRoot n.db doc) true false)

def nestedNode : Node :=
  ([[("id", .str "a"), ("content_type", .str collectionContentType)],
    [("id", .str "b"), ("content_type", .str collectionContentType), ("collection_id", .str "a")],
    [("id", .str "x"), ("content_type", .str "text/plain"), ("collection_id", .str "b")],
    grantDoc "g" "u" "b" "allow"] : List Doc).foldl Node.create hereNode

theorem nestedNode_private : ∃ withheld doc,
    privateSet (fun _ => true) nestedNode.db = (withheld, true) ∧ IsArtifact nestedNode.db "x" doc ∧
      isReplicated (doc.get "content_type") = true ∧
      isPublic (fun _ => true) nestedNode.db doc = false ∧ "x" ∉ withheld := by
  obtain ⟨hset, hdoc⟩ : ((privateSet (fun _ => true) nestedNode.db).2 = true ∧
      "x" ∉ (privateSet (fun _ => true) nestedNode.db).1) ∧
      (docOf nestedNode.db "x").any (fun doc => decide (idText doc = "x") &&
        isReplicated (doc.get "content_type") && !isPublic (fun _ => true) nestedNode.db doc) = true := by
    decide +kernel
  obtain ⟨hsome, hcond⟩ := (Option.any_eq_true_iff_get _ _).mp hdoc
  simp only [Bool.and_eq_true, decide_eq_true_eq, Bool.not_eq_true'] at hcond
  exact ⟨_, _, Prod.ext rfl hset.1, ⟨(Option.some_get hsome).symm, hcond.1.1⟩, hcond.1.2, hcond.2, hset.2⟩

theorem nested_leaks :
    ¬ ∀ (now : Val → Bool) (db : Store) (withheld : List String) (x : String) (doc : Doc),
      privateSet now db = (withheld, true) → IsArtifact db x doc →
      isReplicated (doc.get "content_type") = true → isPublic now db doc = false → x ∈ withheld := by
  intro h
  obtain ⟨withheld, doc, hset, hdoc, hrep, hpub, hout⟩ := nestedNode_private
  exact hout (h _ _ withheld "x" doc hset hdoc hrep hpub)

theorem private_withheld_iff_nested : ∃ withheld doc,
    privateSet (fun _ => true) nestedNode.db = (withheld, true) ∧ IsArtifact nestedNode.db "x" doc ∧
      ((isPublic (fun _ => true) nestedNode.db doc = false → "x" ∈ withheld) ↔
        ((∃ g, groundingOf doc = some g ∧ g ∈ gatedCollections (fun _ => true) nestedNode.db) →
          isMadePublic (fun _ => true) nestedNode.db doc = false →
          RootGated (fun _ => true) nestedNode.db "x")) := by
  obtain ⟨withheld, doc, hset, hdoc, -⟩ := nestedNode_private
  exact ⟨withheld, doc, hset, hdoc, private_withheld_iff hset hdoc⟩

end Mantle
