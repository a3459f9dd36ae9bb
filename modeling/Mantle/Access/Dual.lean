import Mantle.Access.Graph
import Mantle.Db.Run

/-!
# Mantle.Access.Dual — the upward and the downward walk are one relation

Where no artifact has two origin edges into it, what `origin_chain` yields is what `list_origin_descendants` returns an
artifact below.
-/

namespace Mantle

open Walk

variable {u v x y : String}

def SingleOrigin (db : Store) : Prop :=
  ∀ key key' r r', db.edge.lookup key = some r → db.edge.lookup key' = some r' → r.label = containsLabel →
    r'.label = containsLabel → r.isOriginEdge = true → r'.isOriginEdge = true → r.dst = r'.dst → key = key'

variable {db : Store} {a : Action}

/-! ### One step up is one step down -/

theorem conductingParent_step (h : conductingParent db a v = .ok (some u)) (hv : v ≠ "") :
    OriginStep db a u v ∧ u ≠ "" := by
  unfold conductingParent getOriginParent edgesOf at h
  split_ifs at h
  · cases h
  · simp only [Except.map, Except.ok.injEq, Option.bind_eq_some_iff] at h
    obtain ⟨r, hfind, hsrc⟩ := h
    split_ifs at hsrc with hc
    · cases hsrc
      simp only [Bool.and_eq_true, decide_eq_true_eq] at hc
      obtain ⟨hdst, hlabel, key, hkey⟩ := mem_labelled.mp (List.mem_of_find?_eq_some hfind)
      have horigin := List.find?_some hfind
      exact ⟨⟨key, r, hkey, hlabel, rfl, hdst, horigin, hc.2, hv⟩, hc.1⟩

theorem conductingParent_of_step {o : Option String} (hone : SingleOrigin db)
    (hread : conductingParent db a v = .ok o) (h : OriginStep db a u v) (hu : u ≠ "") : o = some u := by
  obtain ⟨key, r, hkey, hlabel, rfl, rfl, horigin, hconducts, -⟩ := h
  unfold conductingParent getOriginParent edgesOf at hread
  split_ifs at hread
  · cases hread
  · simp only [Except.map, Except.ok.injEq] at hread
    -- the first origin edge the read finds can only be this one
    have hmem : r ∈ labelled db .inbound r.dst containsLabel := mem_labelled.mpr ⟨rfl, hlabel, key, hkey⟩
    obtain ⟨f, hf⟩ : ∃ f, (labelled db .inbound r.dst containsLabel).find? ERow.isOriginEdge = some f :=
      Option.isSome_iff_exists.mp (List.find?_isSome.mpr ⟨r, hmem, horigin⟩)
    obtain ⟨hdst, hflabel, fkey, hfkey⟩ := mem_labelled.mp (List.mem_of_find?_eq_some hf)
    have hsame : fkey = key :=
      hone fkey key f r hfkey hkey hflabel hlabel (List.find?_some hf) horigin hdst
    have hfr : f = r := by
      rw [hsame, hkey] at hfkey
      exact (Option.some.inj hfkey).symm
    rw [← hread, hf, hfr, Option.bind_some, if_pos]
    simp [hu, hconducts]

/-! ### The walks -/

theorem climb_above (hy : y ≠ "") (fuel : ℕ) (seen : List String)
    (hx : x ∈ (climb (conductingParent db a) .chainUnterminated fuel seen y).items) : Below db a x y := by
  refine (climb_items (P := fun z => z ≠ "" ∧ Below db a z y) ?_ fuel seen y ⟨hy, Relation.ReflTransGen.refl⟩
    x hx).2
  rintro v u ⟨hv, hbelow⟩ hparent
  obtain ⟨hstep, hu⟩ := conductingParent_step hparent hv
  exact ⟨hu, hbelow.head hstep⟩

theorem mem_climb_of_below {fuel : ℕ} (hone : SingleOrigin db)
    (hend : (climb (conductingParent db a) .chainUnterminated fuel [y] y).ending = none) (hx : x ≠ "")
    (h : Below db a x y) :
    x ∈ y :: (climb (conductingParent db a) .chainUnterminated fuel [y] y).items := by
  have hclosed := climb_closed fuel [y] y hend (List.mem_singleton.mpr rfl)
  induction h using Relation.ReflTransGen.head_induction_on with
  | refl => exact List.mem_cons_self
  | @head u v hstep _ ih =>
    have hv : v ≠ "" := by
      obtain ⟨-, -, -, -, -, -, -, -, hv⟩ := hstep
      exact hv
    obtain ⟨o, ho, habove⟩ := hclosed v (ih hv)
    have hparent := conductingParent_of_step hone ho hstep hx
    rcases habove u hparent with hu | hu
    · exact List.mem_cons.mpr (.inl (List.mem_singleton.mp hu))
    · exact List.mem_cons_of_mem y hu

theorem originChain_own (h : chainRoot db y none = y) : originChain db y a none =
    (climb (conductingParent db a) .chainUnterminated originWalkCeiling [y] y).cons y := by
  unfold originChain
  dsimp only
  rw [h, if_pos rfl]

/-- **Up and down are dual.**  An artifact that is its own root has on its chain itself and exactly the ids it is a
descendant of. -/
theorem mem_originChain_iff_descendant (db : Store) (hone : SingleOrigin db) (a : Action) (x y : String)
    (hx : x ≠ "") (hy : y ≠ "") (hroot : chainRoot db y none = y) (hend : (originChain db y a none).ending = none)
    (out : List String) (hout : listOriginDescendants db [x] a = .ok out) :
    x ∈ (originChain db y a none).items ↔ x = y ∨ y ∈ out := by
  rw [originChain_own hroot] at hend ⊢
  have hdown := mem_descendants_iff hout y
  simp only [List.mem_singleton, exists_eq_left] at hdown
  have hup : x ∈ y :: (climb (conductingParent db a) .chainUnterminated originWalkCeiling [y] y).items ↔
      Below db a x y := by
    constructor
    · intro h
      rcases List.mem_cons.mp h with rfl | h
      · exact Relation.ReflTransGen.refl
      · exact climb_above hy _ _ h
    · exact mem_climb_of_below hone hend hx
  rw [eq_comm, hdown]
  exact hup

def readableNode : Node :=
  hereNode.run
    [.addEdges [.tuple (.str "b") (.str "c") (.str containsLabel) [("is_origin", .bool true)],
      .tuple (.str "c") (.str "x") (.str containsLabel)
        [("is_origin", .bool true), ("propagate", .str "[\"read\"]")]] 500 true]

theorem singleOrigin_of_nodup
    (h : ((db.edge.toPairs.filter fun e => e.2.label = containsLabel ∧ e.2.isOriginEdge = true).map
      fun e => e.2.dst).Nodup) : SingleOrigin db := by
  intro key key' r r' hk hk' hl hl' ho ho' hdst
  have hmem : ∀ k e, db.edge.lookup k = some e → e.label = containsLabel → e.isOriginEdge = true →
      (k, e) ∈ db.edge.toPairs.filter fun e => e.2.label = containsLabel ∧ e.2.isOriginEdge = true := by
    intro k e he hlabel horigin
    exact List.mem_filter.mpr ⟨Table.mem_toPairs.mpr he, by simp [hlabel, horigin]⟩
  have hsame := List.inj_on_of_nodup_map h (hmem key r hk hl ho) (hmem key' r' hk' hl' ho') hdst
  exact congrArg Prod.fst hsame

theorem mem_originChain_iff_descendant_readable :
    "b" ∈ (originChain readableNode.db "x" .read none).items ↔ "b" = "x" ∨ "x" ∈ ["c", "x"] := by
  obtain ⟨hone, hroot, hend, hout⟩ : ((readableNode.db.edge.toPairs.filter fun e =>
      e.2.label = containsLabel ∧ e.2.isOriginEdge = true).map fun e => e.2.dst).Nodup ∧
      chainRoot readableNode.db "x" none = "x" ∧ (originChain readableNode.db "x" .read none).ending = none ∧
        listOriginDescendants readableNode.db ["b"] .read = .ok ["c", "x"] := by decide +kernel
  exact mem_originChain_iff_descendant readableNode.db (singleOrigin_of_nodup hone) .read "b" "x" (by decide) (by decide)
    hroot hend ["c", "x"] hout

end Mantle
