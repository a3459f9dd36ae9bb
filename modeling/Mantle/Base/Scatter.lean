import Mathlib.Algebra.BigOperators.Group.List.Basic
import Mathlib.Algebra.Group.Defs

/-!
# Mantle.Base.Scatter — adding values into numbered buckets

`scatter n` adds every value of a list into its bucket of `n`, in any order.
-/

namespace Mantle.Scatter

variable {M : Type} [AddCommMonoid M]

def add (out : List M) (e : ℕ × M) : List M := out.modify e.1 (· + e.2)

/-- The buckets after every value is added into its own. -/
def scatter (n : ℕ) (xs : List (ℕ × M)) : List M := xs.foldl add (List.replicate n 0)

/-- What a list holds for one bucket. -/
def total (i : ℕ) (xs : List (ℕ × M)) : M := ((xs.filter fun e => decide (e.1 = i)).map Prod.snd).sum

theorem total_cons (i : ℕ) (e : ℕ × M) (xs : List (ℕ × M)) :
    total i (e :: xs) = (if e.1 = i then e.2 else 0) + total i xs := by
  unfold total
  by_cases h : e.1 = i
  · simp [h]
  · simp [h]

theorem getElem?_foldl_add : ∀ (xs : List (ℕ × M)) (out : List M) (i : ℕ),
    (xs.foldl add out)[i]? = out[i]?.map (· + total i xs)
  | [], out, i => by simp [total]
  | e :: xs, out, i => by
    rw [List.foldl_cons, getElem?_foldl_add xs, total_cons]
    unfold add
    rw [List.getElem?_modify]
    by_cases h : e.1 = i
    · simp only [h, if_true, Option.map_eq_map, Option.map_map]
      congr 1
      funext x
      simp [add_assoc]
    · simp [h]

theorem getElem?_scatter (n : ℕ) (xs : List (ℕ × M)) (i : ℕ) :
    (scatter n xs)[i]? = if i < n then some (total i xs) else none := by
  unfold scatter
  rw [getElem?_foldl_add]
  by_cases h : i < n
  · simp [h]
  · simp [h]

@[simp] theorem length_scatter (n : ℕ) (xs : List (ℕ × M)) : (scatter n xs).length = n := by
  have hfold : ∀ (xs : List (ℕ × M)) (out : List M), (xs.foldl add out).length = out.length := by
    intro xs
    induction xs with
    | nil => exact fun _ => rfl
    | cons e xs ih =>
      intro out
      rw [List.foldl_cons, ih]
      exact List.length_modify ..
  unfold scatter
  rw [hfold, List.length_replicate]

theorem scatter_perm (n : ℕ) {xs ys : List (ℕ × M)} (h : xs.Perm ys) : scatter n xs = scatter n ys := by
  refine List.ext_getElem? fun i => ?_
  rw [getElem?_scatter, getElem?_scatter]
  unfold total
  rw [((h.filter _).map _).sum_eq]

/-! ### Pouring buckets together -/

/-- The buckets with their numbers modulo `t`. -/
def numbered (t : ℕ) (out : List M) : List (ℕ × M) := out.zipIdx.map fun e => (e.2 % t, e.1)

theorem total_numbered_modify (t i : ℕ) (v : M) : ∀ (out : List M) (j k : ℕ), j < out.length →
    total i (((out.modify j (· + v)).zipIdx k).map fun e => (e.2 % t, e.1)) =
      total i ((out.zipIdx k).map fun e => (e.2 % t, e.1)) + if (k + j) % t = i then v else 0
  | [], j, k, h => absurd h (Nat.not_lt_zero _)
  | x :: out, 0, k, _ => by
    rw [List.modify_zero_cons, List.zipIdx_cons, List.zipIdx_cons, List.map_cons, List.map_cons, total_cons, total_cons]
    by_cases hk : k % t = i
    · simp only [hk, if_true, Nat.add_zero]
      exact add_right_comm x v _
    · simp [hk]
  | x :: out, j + 1, k, h => by
    rw [List.modify_succ_cons, List.zipIdx_cons, List.zipIdx_cons, List.map_cons, List.map_cons, total_cons, total_cons,
      total_numbered_modify t i v out j (k + 1) (Nat.lt_of_succ_lt_succ h),
      show k + 1 + j = k + (j + 1) by omega, add_assoc]

theorem total_numbered_replicate (t i : ℕ) : ∀ (n k : ℕ),
    total i (((List.replicate n (0 : M)).zipIdx k).map fun e => (e.2 % t, e.1)) = 0
  | 0, k => rfl
  | n + 1, k => by
    rw [List.replicate_succ, List.zipIdx_cons, List.map_cons, total_cons, total_numbered_replicate t i n (k + 1)]
    simp

/-- **Pouring the buckets together by their number modulo `t`** is scattering modulo `t`. -/
theorem scatter_numbered (n t : ℕ) {xs : List (ℕ × M)} (h : ∀ e ∈ xs, e.1 < n) :
    scatter t (numbered t (scatter n xs)) = scatter t (xs.map fun e => (e.1 % t, e.2)) := by
  have hfold : ∀ (xs : List (ℕ × M)) (out : List M) (i : ℕ), out.length = n → (∀ e ∈ xs, e.1 < n) →
      total i (numbered t (xs.foldl add out)) =
        total i (numbered t out) + total i (xs.map fun e => (e.1 % t, e.2)) := by
    intro xs
    induction xs with
    | nil => intro out i _ _; simp [total]
    | cons e xs ih =>
      intro out i hlen hpos
      have he : e.1 < out.length := by
        rw [hlen]
        exact hpos e List.mem_cons_self
      have hone : total i (numbered t (add out e)) = total i (numbered t out) + if e.1 % t = i then e.2 else 0 := by
        have hm := total_numbered_modify t i e.2 out e.1 0 he
        rwa [Nat.zero_add] at hm
      have hlen' : (add out e).length = n := (List.length_modify ..).trans hlen
      rw [List.foldl_cons, ih (add out e) i hlen' fun x hx => hpos x (List.mem_cons_of_mem e hx),
        hone, List.map_cons, total_cons, add_assoc]
  refine List.ext_getElem? fun i => ?_
  rw [getElem?_scatter, getElem?_scatter]
  have hsum := hfold xs (List.replicate n 0) i List.length_replicate h
  rw [show numbered t (List.replicate n (0 : M)) =
    ((List.replicate n (0 : M)).zipIdx 0).map (fun e => (e.2 % t, e.1)) from rfl, total_numbered_replicate, zero_add]
    at hsum
  rw [show scatter n xs = xs.foldl add (List.replicate n 0) from rfl, hsum]

end Mantle.Scatter
