import Mantle.Service.Remove

/-!
# Mantle.Service.Membership — dropping one membership (`remove_artifact_from_collection`)

Every edge out of a container is a membership, and the removal drops the first one to the root in the order of the
keys.
-/

namespace Mantle

open Tx

/-! ### Reading and dropping -/

/-- `_TOKEN_PREFIX`. -/
def tokenMark : String := "kt1:"

/-- `_shown_label`: nothing for containment, else the name of the link. -/
def shownLabel (openValue : Val → Option String) (e : ERow) : Option String :=
  if e.label = containsLabel then none
  else if startsText e.label tokenMark then
    let sealed := edgeProp e .none "label_sealed"
    -- a name sealed under another key stays the token
    some (if sealed.truthy then (openValue sealed).getD e.label else e.label)
  else some e.label

structure MembershipShown where
  rootId : String
  orderKey : Val
  origin : Bool
  propagate : Val
  relationship : Option String
  relation : Option String

def getEdge (openValue : Val → Option String) (db : Store) (collectionId rootId : String) :
    Except AccessErr (Option MembershipShown) :=
  (findMembership db collectionId rootId).map fun e => e.map fun e =>
    ⟨rootId, edgeProp e e.orderKey "order_key", e.isOriginEdge, e.mask, shownLabel openValue e, shownLabel openValue e⟩

/-- `remove_artifact_from_collection` with its answer: a deletion that raises is `False`. -/
def removalAnswer (n : Node) (collectionId rootId : String) : Except AccessErr (Bool × Node) :=
  (findMembership n.db collectionId rootId).map fun e =>
    match e with
    | none => (true, n)
    | some e =>
      match deleteEdge collectionId rootId e.label n with
      | .ok _ n' => (true, n')
      | .error _ n' => (false, n')

theorem removeArtifactFromCollection_eq (n : Node) (c root : String) :
    removeArtifactFromCollection n c root = (removalAnswer n c root).map Prod.snd := by
  unfold removeArtifactFromCollection removalAnswer
  cases findMembership n.db c root with
  | error e => rfl
  | ok o =>
    cases o with
    | none => rfl
    | some e =>
      refine congrArg Except.ok ?_
      dsimp only
      unfold Node.endsAt
      cases deleteEdge c root e.label n <;> rfl

/-! ### What a removal leaves -/

section Removed

variable {n n' : Node} {db : Store} {c root : String}

/-- An edge from the container to the root. -/
def Joins (db : Store) (c root : String) (key : EdgeKey) (e : ERow) : Prop :=
  db.edge.lookup key = some e ∧ e.src = c ∧ e.dst = root

/-- The membership is gone and nothing else with it: at most one edge between the two is another than before. -/
structure MembershipRemoved (c root : String) (n n' : Node) : Prop where
  edge : ∀ key e, Joins n'.db c root key e → e.label ≠ containsLabel
  shown : ∀ openValue s, getEdge openValue n'.db c root = .ok (some s) → s.relationship ≠ none
  cone : ∀ a, ¬OriginStep n'.db a c root
  rest : ∃ label, ∀ key ≠ edgeKey c root label, n'.db.edge.lookup key = n.db.edge.lookup key

/-- The containment edge, if there is one, comes before every other edge between the two. -/
def ContainmentFirst (db : Store) (c root : String) : Prop :=
  ∀ key e, Joins db c root key e → e.label = containsLabel → ∀ key' e', Joins db c root key' e' → key ≤ key'

theorem findMembership_least {e : ERow} (h : findMembership db c root = .ok (some e)) :
    ∃ key, Joins db c root key e ∧ ∀ key' e', Joins db c root key' e' → key ≤ key' := by
  obtain ⟨es, hes, hf⟩ := map_ok h
  unfold membershipEdges at hes
  dsimp only at hes
  split_ifs at hes
  cases hes
  rw [List.find?_map, Option.map_eq_some_iff] at hf
  obtain ⟨⟨key, e⟩, hf, rfl⟩ := hf
  obtain ⟨hmem, htest, hleast⟩ := find_sorted (List.pairwise_insertionSort _ _) hf
  simp only [List.mem_insertionSort, List.mem_filter, Table.mem_toPairs, decide_eq_true_eq, Function.comp_apply]
    at hmem htest hleast
  exact ⟨key, ⟨hmem.1, hmem.2, htest⟩, fun key' e' h' =>
    hleast (key', e') ⟨Table.mem_toPairs.mpr h'.1, h'.2.1⟩ h'.2.2⟩

theorem findMembership_absent (h : findMembership db c root = .ok none) (key : EdgeKey) (e : ERow) :
    ¬Joins db c root key e := by
  rintro ⟨hk, hs, hd⟩
  obtain ⟨es, hes, hf⟩ := map_ok h
  have hno := List.find?_eq_none.mp hf e ((mem_membershipEdges hes).mpr ⟨hs, key, hk⟩)
  simp [hd] at hno

theorem shownLabel_none {openValue : Val → Option String} {e : ERow} (h : shownLabel openValue e = none) :
    e.label = containsLabel := by
  unfold shownLabel at h
  split_ifs at h with hl
  exact hl

theorem removalAnswer_true (hs : EdgesSound n.db) (h : removalAnswer n c root = .ok (true, n')) :
    (n' = n ∧ ∀ key e, ¬Joins n.db c root key e) ∨
      ∃ e, Joins n.db c root (edgeKey c root e.label) e ∧
        (∀ key' e', Joins n.db c root key' e' → edgeKey c root e.label ≤ key') ∧
        n'.db.edge = n.db.edge.erase (edgeKey c root e.label) := by
  obtain ⟨o, ho, hn'⟩ := map_ok h
  cases o with
  | none =>
    cases hn'
    exact .inl ⟨rfl, findMembership_absent ho⟩
  | some e =>
    obtain ⟨key, hj, hleast⟩ := findMembership_least ho
    obtain rfl : key = edgeKey c root e.label := by rw [hs.keyed key e hj.1, hj.2.1, hj.2.2]
    dsimp only at hn'
    cases hdel : deleteEdge c root e.label n with
    | error _ _ =>
      rw [hdel] at hn'
      cases hn'
    | ok b m =>
      rw [hdel] at hn'
      cases hn'
      exact .inr ⟨e, hj, hleast, ((deleteEdge_exact n hj.1).ok hdel).1.2⟩

theorem MembershipRemoved.of_edge (hedge : ∀ key e, Joins n'.db c root key e → e.label ≠ containsLabel)
    (hrest : ∃ label, ∀ key ≠ edgeKey c root label, n'.db.edge.lookup key = n.db.edge.lookup key) :
    MembershipRemoved c root n n' where
  edge := hedge
  shown := by
    intro openValue s hs hnone
    obtain ⟨o, ho, hmap⟩ := map_ok hs
    obtain ⟨e, rfl, rfl⟩ := Option.map_eq_some_iff.mp hmap
    obtain ⟨key, hj, -⟩ := findMembership_least ho
    exact hedge key e hj (shownLabel_none hnone)
  cone := by
    rintro a ⟨key, e, hk, hl, hsrc, hdst, -⟩
    exact hedge key e ⟨hk, hsrc, hdst⟩ hl
  rest := hrest

/-- **A removal that answers `True`** has removed the membership exactly where containment came first. -/
theorem membership_removed_iff (hs : EdgesSound n.db) (h : removalAnswer n c root = .ok (true, n')) :
    MembershipRemoved c root n n' ↔ ContainmentFirst n.db c root := by
  rcases removalAnswer_true hs h with ⟨rfl, hnone⟩ | ⟨e, hj, hleast, hedges⟩
  · exact ⟨fun _ key e hj => absurd hj (hnone key e), fun _ =>
      .of_edge (fun key e hj => absurd hj (hnone key e)) ⟨containsLabel, fun _ _ => rfl⟩⟩
  have hrest : ∀ key ≠ edgeKey c root e.label, n'.db.edge.lookup key = n.db.edge.lookup key := by
    intro key hkey
    rw [hedges, AList.lookup_erase_ne hkey]
  constructor
  · -- a containment edge that was not the first would still be there
    intro hr key e' hj' hl key' e'' hj''
    by_cases hkey : key = edgeKey c root e.label
    · subst hkey
      exact hleast key' e'' hj''
    · exact absurd hl (hr.edge key e' ⟨(hrest key hkey).trans hj'.1, hj'.2⟩)
  · intro hfirst
    refine .of_edge (fun key e' hj' hl => ?_) ⟨e.label, hrest⟩
    have hkey : key ≠ edgeKey c root e.label := by
      rintro rfl
      have hat := hj'.1
      rw [hedges, AList.lookup_erase] at hat
      cases hat
    have hbefore : Joins n.db c root key e' := ⟨(hrest key hkey).symm.trans hj'.1, hj'.2⟩
    exact hkey (le_antisymm (hfirst key e' hbefore hl _ e hj) (hleast key e' hbefore))

end Removed

def joiningActs (c root : String) : List Act :=
  [.addEdges [.tuple (.str c) (.str root) (.str "contains") [("is_origin", .int 1)],
    .tuple (.str c) (.str root) (.str "link") []] 500 true]

def joinedNode (c root : String) : Node := hereNode.run (joiningActs c root)

def afterRemoval (c root : String) : Except AccessErr (Bool × Option (String × String × String)) :=
  (removalAnswer (joinedNode c root) c root).map fun r =>
    (r.1, (r.2.db.edge.lookup (edgeKey c root containsLabel)).map fun e => (e.src, e.dst, e.label))

theorem membership_removed_shelf : ∃ n', removalAnswer (joinedNode "shelf" "book") "shelf" "book" = .ok (true, n') ∧
    MembershipRemoved "shelf" "book" (joinedNode "shelf" "book") n' := by
  obtain ⟨h, hleast⟩ : afterRemoval "shelf" "book" = .ok (true, none) ∧
      ∀ p ∈ (joinedNode "shelf" "book").db.edge.toPairs, edgeKey "shelf" "book" containsLabel ≤ p.1 := by decide +kernel
  obtain ⟨⟨b, n'⟩, hr, hb⟩ := map_ok h
  obtain rfl : b = true := (Prod.mk.inj hb).1
  have hs := edgesSound_run ⟨"here", by decide⟩ 4096 (joiningActs "shelf" "book")
  refine ⟨n', hr, (membership_removed_iff hs hr).mpr ?_⟩
  intro key e hj hl key' e' hj'
  rw [hs.keyed key e hj.1, hj.2.1, hj.2.2, hl]
  exact hleast (key', e') (Table.mem_toPairs.mpr hj'.1)

theorem membership_survives : ∃ n', removalAnswer (joinedNode "box" "x") "box" "x" = .ok (true, n') ∧
    (∃ key e, Joins n'.db "box" "x" key e ∧ e.label = containsLabel) ∧
    ¬MembershipRemoved "box" "x" (joinedNode "box" "x") n' := by
  have h : afterRemoval "box" "x" = .ok (true, some ("box", "x", "contains")) := by decide +kernel
  obtain ⟨⟨b, n'⟩, hr, hb⟩ := map_ok h
  obtain ⟨rfl, hat⟩ := Prod.mk.inj hb
  obtain ⟨e, he, hends⟩ := Option.map_eq_some_iff.mp hat
  obtain ⟨hs, hrest⟩ := Prod.mk.inj hends
  obtain ⟨hd, hl⟩ := Prod.mk.inj hrest
  have hj : Joins n'.db "box" "x" (edgeKey "box" "x" containsLabel) e := ⟨he, hs, hd⟩
  exact ⟨n', hr, ⟨_, e, hj, hl⟩, fun hm => hm.edge _ e hj hl⟩

end Mantle
