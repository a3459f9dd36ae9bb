import Mathlib.Data.List.AList
import Mathlib.Data.List.Sort
import Mathlib.Algebra.BigOperators.Group.List.Basic
import Mathlib.Algebra.BigOperators.Group.List.Lemmas

/-!
# Mantle.Base.Table — keyed tables and weighted sums over their rows

A table is an association list with distinct keys.  `sumBy w t` adds up a weight of every row, in any commutative
group.
-/

namespace Mantle

/-- A table of rows `ρ` under distinct keys `κ`. -/
abbrev Table (κ ρ : Type) := AList (fun _ : κ => ρ)

namespace Table

variable {κ ρ : Type} [DecidableEq κ]

/-- The rows with their keys, in table order. -/
def toPairs (t : Table κ ρ) : List (κ × ρ) := t.entries.map fun e => (e.1, e.2)

theorem mem_toPairs {t : Table κ ρ} {k : κ} {r : ρ} :
    (k, r) ∈ t.toPairs ↔ t.lookup k = some r := by
  rw [← Option.mem_def, AList.mem_lookup_iff]
  simp only [toPairs, List.mem_map, Prod.mk.injEq]
  constructor
  · rintro ⟨⟨k', r'⟩, hm, rfl, rfl⟩
    exact hm
  · intro h
    exact ⟨⟨k, r⟩, h, rfl, rfl⟩

omit [DecidableEq κ] in
theorem toPairs_keys (t : Table κ ρ) : (t.toPairs.map Prod.fst).Nodup := by
  have := t.keys_nodup
  simpa [toPairs, AList.keys, List.keys, Function.comp_def] using this

omit [DecidableEq κ] in
theorem filter_keys (t : Table κ ρ) (p : κ × ρ → Bool) : ((t.toPairs.filter p).map Prod.fst).Nodup :=
  t.toPairs_keys.sublist (List.filter_sublist.map _)

theorem sort_lt {κ : Type} [LinearOrder κ] {l : List (κ × ρ)} (h : (l.map Prod.fst).Nodup) :
    (l.insertionSort fun a b => a.1 ≤ b.1).Pairwise fun a b => a.1 < b.1 := by
  have hperm := (List.perm_insertionSort (fun a b : κ × ρ => a.1 ≤ b.1) l).map Prod.fst
  have hne := List.pairwise_map.mp (hperm.nodup_iff.mpr h)
  exact (List.pairwise_insertionSort _ _).imp₂ (fun _ _ hle hne => lt_of_le_of_ne hle hne) hne

theorem lookup_insert_of {t : Table κ ρ} {k k' : κ} {r : ρ} :
    (t.insert k r).lookup k' = if k' = k then some r else t.lookup k' := by
  by_cases h : k' = k
  · subst h
    rw [if_pos rfl, AList.lookup_insert]
  · rw [if_neg h, AList.lookup_insert_ne h]

theorem lookup_erase_of {t : Table κ ρ} {k k' : κ} :
    (t.erase k).lookup k' = if k' = k then none else t.lookup k' := by
  by_cases h : k' = k
  · subst h
    rw [if_pos rfl, AList.lookup_erase]
  · rw [if_neg h, AList.lookup_erase_ne h]

/-- The table without the rows whose keys pass a test. -/
def eraseIf (f : κ → Bool) (t : Table κ ρ) : Table κ ρ := (t.keys.filter f).foldl (fun t k => t.erase k) t

theorem lookup_foldl_erase {k : κ} : ∀ (ks : List κ) (t : Table κ ρ),
    (ks.foldl (fun t k => t.erase k) t).lookup k = if k ∈ ks then none else t.lookup k
  | [], t => by simp
  | k' :: ks, t => by
    rw [List.foldl_cons, lookup_foldl_erase ks, lookup_erase_of]
    by_cases hk : k ∈ ks
    · rw [if_pos hk, if_pos (List.mem_cons_of_mem _ hk)]
    · rw [if_neg hk]
      simp [hk]

theorem lookup_eraseIf {t : Table κ ρ} {f : κ → Bool} {k : κ} :
    (t.eraseIf f).lookup k = if f k then none else t.lookup k := by
  unfold eraseIf
  rw [lookup_foldl_erase]
  by_cases hf : f k = true
  · rw [if_pos hf]
    by_cases hk : k ∈ t.keys
    · exact if_pos (List.mem_filter.mpr ⟨hk, hf⟩)
    · rw [if_neg fun h => hk (List.mem_filter.mp h).1]
      exact AList.lookup_eq_none.mpr hk
  · rw [if_neg hf]
    exact if_neg fun h => hf (List.mem_filter.mp h).2

theorem entries_perm_of_lookup {t : Table κ ρ} {k : κ} {r : ρ} (h : t.lookup k = some r) :
    t.entries.Perm (⟨k, r⟩ :: (t.erase k).entries) := by
  have hk : k ∈ t.keys := by
    rw [← AList.mem_keys, ← AList.lookup_isSome, h]
    rfl
  obtain ⟨b, l₁, l₂, -, he, hr⟩ := List.exists_of_kerase hk
  have hb : b = r := by
    have hm : (⟨k, b⟩ : Sigma fun _ : κ => ρ) ∈ t.entries := by
      rw [he]
      simp
    have := AList.mem_lookup_iff.mpr hm
    rw [h] at this
    exact (Option.some.inj this).symm
  subst hb
  have her : (t.erase k).entries = l₁ ++ l₂ := hr
  rw [her, he]
  exact List.perm_middle

theorem erase_of_lookup_none {t : Table κ ρ} {k : κ} (h : t.lookup k = none) : t.erase k = t := by
  apply AList.ext
  exact List.kerase_of_notMem_keys (AList.lookup_eq_none.mp h)

/-! ### Weighted sums -/

section Sum

variable {M : Type} [AddCommGroup M]

def sumBy (w : κ → ρ → M) (t : Table κ ρ) : M := (t.entries.map fun e => w e.1 e.2).sum

/-- The weight of the row stored under `k`, zero when there is none. -/
def weightAt (w : κ → ρ → M) (t : Table κ ρ) (k : κ) : M :=
  match t.lookup k with
  | some r => w k r
  | none => 0

variable {w : κ → ρ → M} {t : Table κ ρ} {k : κ} {r : ρ}

omit [DecidableEq κ] in
@[simp] theorem sumBy_empty : sumBy w (∅ : Table κ ρ) = 0 := rfl

theorem weightAt_some (h : t.lookup k = some r) : weightAt w t k = w k r := by
  simp [weightAt, h]

theorem weightAt_none (h : t.lookup k = none) : weightAt w t k = 0 := by
  simp [weightAt, h]

theorem sumBy_eq_weightAt_add_erase : sumBy w t = weightAt w t k + sumBy w (t.erase k) := by
  cases h : t.lookup k with
  | none => rw [weightAt_none h, erase_of_lookup_none h, zero_add]
  | some r =>
    rw [weightAt_some h]
    have hp := (entries_perm_of_lookup h).map fun e => w e.1 e.2
    simpa [sumBy] using hp.sum_eq

theorem sumBy_erase : sumBy w (t.erase k) = sumBy w t - weightAt w t k := by
  rw [sumBy_eq_weightAt_add_erase (k := k) (t := t), add_sub_cancel_left]

theorem sumBy_insert : sumBy w (t.insert k r) = sumBy w t - weightAt w t k + w k r := by
  have h : sumBy w (t.insert k r) = w k r + sumBy w (t.erase k) := rfl
  rw [h, sumBy_erase, add_comm]

end Sum

end Table

end Mantle
