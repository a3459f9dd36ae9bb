import Mantle.Base.Scatter
import Mantle.Mesh.Reconcile

/-!
# Mantle.Mesh.Fold — building a leaf tree and folding it (`mesh/merkle.py`)

Folding a tree is building it at the coarser resolution, so two stores with the same rows show no difference, at
whatever two nested resolutions they stand.
-/

namespace Mantle

open Scatter

variable {L L₁ L₂ : ℕ+}

/-- `merkle.build`: rows without an id are passed over. -/
def buildDigests (rows : List (String × Val)) (leaves : ℕ+) : List ℤ :=
  rows.foldl (fun acc r => if r.1 = "" then acc else acc.modify (leafOf r.1 leaves) (Int.xor · (rowHash r.1 r.2)))
    (List.replicate leaves 0)

/-! ### Digests as sums -/

/-- A digest as the number it is read as. -/
def XorNat.toInt (x : XorNat) : ℤ := (x.val : ℤ)

theorem modify_toInt (out : List XorNat) (i : ℕ) (v : XorNat) :
    (out.map XorNat.toInt).modify i (Int.xor · v.toInt) = (out.modify i (· + v)).map XorNat.toInt := by
  refine List.ext_getElem? fun j => ?_
  rw [List.getElem?_modify, List.getElem?_map, List.getElem?_map, List.getElem?_modify]
  by_cases hij : i = j
  · cases out[j]? <;> simp [hij, XorNat.toInt, Int.xor]
  · cases out[j]? <;> simp [hij]

def rowEntry (leaves : ℕ+) (r : String × Val) : Option (ℕ × XorNat) :=
  if r.1 = "" then none else some (leafOf r.1 leaves, ⟨rowHash r.1 r.2⟩)

theorem buildDigests_eq (rows : List (String × Val)) (leaves : ℕ+) :
    buildDigests rows leaves = (scatter leaves (rows.filterMap (rowEntry leaves))).map XorNat.toInt := by
  have hfold : ∀ (rows : List (String × Val)) (out : List XorNat),
      rows.foldl (fun acc r => if r.1 = "" then acc else acc.modify (leafOf r.1 leaves) (Int.xor · (rowHash r.1 r.2)))
          (out.map XorNat.toInt) =
        ((rows.filterMap (rowEntry leaves)).foldl Scatter.add out).map XorNat.toInt := by
    intro rows
    induction rows with
    | nil => exact fun _ => rfl
    | cons r rows ih =>
      intro out
      rw [List.foldl_cons]
      by_cases hr : r.1 = ""
      · rw [if_pos hr, ih, List.filterMap_cons_none (by unfold rowEntry; rw [if_pos hr])]
      · have hone : (out.map XorNat.toInt).modify (leafOf r.1 leaves) (Int.xor · (rowHash r.1 r.2)) =
            (Scatter.add out (leafOf r.1 leaves, ⟨rowHash r.1 r.2⟩)).map XorNat.toInt := modify_toInt out _ _
        rw [if_neg hr, List.filterMap_cons_some (by unfold rowEntry; rw [if_neg hr]), List.foldl_cons]
        rw [hone]
        exact ih _
  have hstart : (List.replicate leaves (0 : XorNat)).map XorNat.toInt = List.replicate leaves 0 := List.map_replicate
  unfold buildDigests scatter
  rw [← hstart, hfold]

@[simp] theorem length_buildDigests (rows : List (String × Val)) (leaves : ℕ+) :
    (buildDigests rows leaves).length = leaves := by
  rw [buildDigests_eq, List.length_map, length_scatter]

theorem buildDigests_perm {rows rows' : List (String × Val)} (h : rows.Perm rows') (leaves : ℕ+) :
    buildDigests rows leaves = buildDigests rows' leaves := by
  rw [buildDigests_eq, buildDigests_eq, scatter_perm _ (h.filterMap _)]

theorem foldDigests_toInt (out : List XorNat) {target : ℕ} (ht : target ≠ 0) (hdvd : target ∣ out.length) :
    foldDigests (out.map XorNat.toInt) target = some ((scatter target (numbered target out)).map XorNat.toInt) := by
  have hfold : ∀ (es : List (XorNat × ℕ)) (acc : List XorNat),
      es.foldl (fun acc e => acc.modify (e.2 % target) (Int.xor · e.1.toInt)) (acc.map XorNat.toInt) =
        ((es.map fun e => (e.2 % target, e.1)).foldl Scatter.add acc).map XorNat.toInt := by
    intro es
    induction es with
    | nil => exact fun _ => rfl
    | cons e es ih =>
      intro acc
      rw [List.foldl_cons, List.map_cons, List.foldl_cons, modify_toInt]
      exact ih _
  have hstart : (List.replicate target (0 : XorNat)).map XorNat.toInt = List.replicate target 0 := List.map_replicate
  unfold foldDigests
  rw [if_neg (by rw [List.length_map]; simp [ht, Nat.mod_eq_zero_of_dvd hdvd]), List.zipIdx_map, List.foldl_map,
    ← hstart]
  exact congrArg some (hfold _ _)

/-! ### Resolutions that nest -/

variable {rows rows' : List (String × Val)}

theorem leafOf_mod (id : String) {t : ℕ+} (h : (t : ℕ) ∣ L) : leafOf id L % t = leafOf id t := by
  unfold leafOf
  exact Nat.mod_mod_of_dvd _ h

theorem leafOf_lt (id : String) (L : ℕ+) : leafOf id L < L := Nat.mod_lt _ L.pos

theorem rowEntry_lt {e : ℕ × XorNat} (he : e ∈ rows.filterMap (rowEntry L)) : e.1 < L := by
  obtain ⟨r, -, hr⟩ := List.mem_filterMap.mp he
  unfold rowEntry at hr
  split_ifs at hr
  cases hr
  exact leafOf_lt r.1 L

theorem foldDigests_build (rows : List (String × Val)) {t : ℕ+} (h : (t : ℕ) ∣ L) :
    foldDigests (buildDigests rows L) t = some (buildDigests rows t) := by
  have hrows : ((rows.filterMap (rowEntry L)).map fun e => (e.1 % (t : ℕ), e.2)) = rows.filterMap (rowEntry t) := by
    rw [List.map_filterMap]
    refine List.filterMap_congr fun r _ => ?_
    unfold rowEntry
    split_ifs
    · rfl
    · simp [leafOf_mod r.1 h]
  rw [buildDigests_eq, foldDigests_toInt _ t.pos.ne' (by rwa [length_scatter]),
    scatter_numbered _ _ fun e he => rowEntry_lt he, hrows, buildDigests_eq]

theorem commonDigests_build (hnest : ((min L₁ L₂ : ℕ+) : ℕ) ∣ (max L₁ L₂ : ℕ+)) :
    commonDigests (buildDigests rows L₁) (buildDigests rows' L₂) =
      (some (buildDigests rows (min L₁ L₂)), some (buildDigests rows' (min L₁ L₂))) := by
  have hmin : min (L₁ : ℕ) L₂ = (min L₁ L₂ : ℕ+) := rfl
  unfold commonDigests
  simp only [length_buildDigests, hmin]
  rcases le_total L₁ L₂ with hle | hle
  · rw [min_eq_left hle, max_eq_right hle] at hnest
    rw [min_eq_left hle, if_pos rfl, foldDigests_build rows' hnest]
    split_ifs with heq
    · rw [show L₂ = L₁ from PNat.coe_injective heq]
    · rfl
  · rw [min_eq_right hle, max_eq_left hle] at hnest
    rw [min_eq_right hle, if_pos rfl, foldDigests_build rows hnest]
    split_ifs with heq
    · rw [show L₁ = L₂ from PNat.coe_injective heq]
    · rfl

theorem diffDigests_build (hrows : rows.Perm rows') (hnest : ((min L₁ L₂ : ℕ+) : ℕ) ∣ (max L₁ L₂ : ℕ+)) :
    diffDigests (buildDigests rows L₁) (buildDigests rows' L₂) = [] := by
  unfold diffDigests
  rw [commonDigests_build hnest, buildDigests_perm hrows]
  simp

theorem mem_nativeLeaves {mine theirs : List ℤ} (hm : mine.length = L₁) (ht : theirs.length = L₂)
    (hnest : ((min L₁ L₂ : ℕ+) : ℕ) ∣ (max L₁ L₂ : ℕ+)) (id : String) :
    leafOf id L₂ ∈ nativeLeaves mine theirs (leafOf id (min L₁ L₂)) := by
  have hmin : min (L₁ : ℕ) L₂ = (min L₁ L₂ : ℕ+) := rfl
  have hdvd : ((min L₁ L₂ : ℕ+) : ℕ) ∣ L₂ := by
    rcases le_total L₁ L₂ with hle | hle
    · rwa [max_eq_right hle] at hnest
    · rw [min_eq_right hle]
  have hpos := (min L₁ L₂).pos
  have hmod := leafOf_mod id hdvd
  have hlt : leafOf id L₂ / (min L₁ L₂ : ℕ+) < (L₂ : ℕ) / (min L₁ L₂ : ℕ+) :=
    Nat.div_lt_div_of_lt_of_dvd hdvd (leafOf_lt id L₂)
  unfold nativeLeaves
  rw [hm, ht, hmin, List.mem_map]
  refine ⟨leafOf id L₂ / (min L₁ L₂ : ℕ+), List.mem_range.mpr (lt_of_lt_of_le hlt (le_max_right _ _)), ?_⟩
  rw [← hmod]
  exact Nat.mod_add_div' _ _

/-- **Folding commutes with building**, so stores with the same rows agree at nested resolutions. -/
theorem folding_commutes :
    (∀ (rows rows' : List (String × Val)) (L t : ℕ+), rows.Perm rows' → (t : ℕ) ∣ L →
        foldDigests (buildDigests rows L) t = some (buildDigests rows' t)) ∧
      ∀ (rows rows' : List (String × Val)) (L₁ L₂ : ℕ+), ((min L₁ L₂ : ℕ+) : ℕ) ∣ (max L₁ L₂ : ℕ+) →
        (rows.Perm rows' → diffDigests (buildDigests rows L₁) (buildDigests rows' L₂) = []) ∧
          ∀ li ∈ diffDigests (buildDigests rows L₁) (buildDigests rows' L₂), ∀ r ∈ rows',
            leafOf r.1 (min L₁ L₂) = li →
              leafOf r.1 L₂ ∈ nativeLeaves (buildDigests rows L₁) (buildDigests rows' L₂) li := by
  refine ⟨?_, ?_⟩
  · intro rows rows' L t hrows hdvd
    rw [foldDigests_build rows hdvd, buildDigests_perm hrows]
  · intro rows rows' L₁ L₂ hnest
    refine ⟨fun hrows => diffDigests_build hrows hnest, ?_⟩
    rintro li - r - rfl
    exact mem_nativeLeaves (length_buildDigests rows L₁) (length_buildDigests rows' L₂) hnest r.1

theorem folding_commutes_two :
    foldDigests (buildDigests [("a", .int 1), ("b", .int 2)] 4) 2 =
        some (buildDigests [("b", .int 2), ("a", .int 1)] 2) ∧
      diffDigests (buildDigests [("a", .int 1), ("b", .int 2)] 4) (buildDigests [("b", .int 2), ("a", .int 1)] 2) = [] :=
  ⟨folding_commutes.1 _ _ 4 2 (List.Perm.swap ..) (by decide),
    (folding_commutes.2 _ _ 4 2 (by decide)).1 (List.Perm.swap ..)⟩

end Mantle
