import Mantle.Base.Table
import Mathlib.Order.Bounds.Basic
import Mathlib.Data.List.Basic

/-!
# Mantle.Base.Tally — counts and merges kept in tables

A pass over keys updates each key's row from the row it had; a merge takes the rows of one table into another.
-/

namespace Mantle

namespace Tally

variable {κ ρ : Type} [DecidableEq κ]

/-- Every key's row is remade from the row it has. -/
def touch (f : Option ρ → ρ) (ks : List κ) (t : Table κ ρ) : Table κ ρ :=
  ks.foldl (fun t k => t.insert k (f (t.lookup k))) t

/-- The rows of `es` are taken into the table, each against the row the table has. -/
def merge (f : Option ρ → ρ → ρ) (es : List (κ × ρ)) (t : Table κ ρ) : Table κ ρ :=
  es.foldl (fun t e => t.insert e.1 (f (t.lookup e.1) e.2)) t

/-- One more for each key. -/
def count (ks : List κ) (t : Table κ ℕ) : Table κ ℕ := touch (fun n => n.getD 0 + 1) ks t

/-- `x` is appended to the list of each key. -/
def collect (x : ρ) (ks : List κ) (t : Table κ (List ρ)) : Table κ (List ρ) := touch (fun l => l.getD [] ++ [x]) ks t

theorem lookup_touch (f : Option ρ → ρ) {k : κ} : ∀ {ks : List κ} {t : Table κ ρ}, ks.Nodup →
    (touch f ks t).lookup k = if k ∈ ks then some (f (t.lookup k)) else t.lookup k
  | [], t, _ => by simp [touch]
  | k' :: ks, t, h => by
    obtain ⟨hnot, hks⟩ := List.nodup_cons.mp h
    have ih := lookup_touch f (k := k) (t := t.insert k' (f (t.lookup k'))) hks
    unfold touch at ih ⊢
    rw [List.foldl_cons, ih, Table.lookup_insert_of]
    by_cases hk : k = k'
    · subst hk
      simp [hnot]
    · simp [hk]

theorem count_lookup {ks : List κ} {t : Table κ ℕ} {k : κ} (h : ks.Nodup) :
    ((count ks t).lookup k).getD 0 = (t.lookup k).getD 0 + if k ∈ ks then 1 else 0 := by
  unfold count
  rw [lookup_touch _ h]
  split_ifs <;> rfl

theorem merge_of_not_mem (f : Option ρ → ρ → ρ) {k : κ} : ∀ {es : List (κ × ρ)} {t : Table κ ρ},
    (∀ r, (k, r) ∉ es) → (merge f es t).lookup k = t.lookup k
  | [], _, _ => rfl
  | e :: es, t, h => by
    have hne : k ≠ e.1 := by
      rintro rfl
      exact h e.2 List.mem_cons_self
    have ih := merge_of_not_mem f (k := k) (t := t.insert e.1 (f (t.lookup e.1) e.2))
      fun r hr => h r (List.mem_cons_of_mem _ hr)
    unfold merge at ih ⊢
    rw [List.foldl_cons, ih, Table.lookup_insert_of, if_neg hne]

theorem merge_of_mem (f : Option ρ → ρ → ρ) {k : κ} {r : ρ} : ∀ {es : List (κ × ρ)} {t : Table κ ρ},
    (es.map Prod.fst).Nodup → (k, r) ∈ es → (merge f es t).lookup k = some (f (t.lookup k) r)
  | e :: es, t, hnodup, hmem => by
    rw [List.map_cons, List.nodup_cons] at hnodup
    rcases List.mem_cons.mp hmem with rfl | hrest
    · have hout : ∀ r', (k, r') ∉ es := fun r' hr' => hnodup.1 (List.mem_map.mpr ⟨_, hr', rfl⟩)
      have hskip := merge_of_not_mem f (t := t.insert k (f (t.lookup k) r)) hout
      unfold merge at hskip ⊢
      rw [List.foldl_cons, hskip, AList.lookup_insert]
    · have hne : k ≠ e.1 := by
        rintro rfl
        exact hnodup.1 (List.mem_map.mpr ⟨_, hrest, rfl⟩)
      have ih := merge_of_mem f (t := t.insert e.1 (f (t.lookup e.1) e.2)) hnodup.2 hrest
      unfold merge at ih ⊢
      rw [List.foldl_cons, ih, Table.lookup_insert_of, if_neg hne]

theorem merge_none (f : Option ρ → ρ → ρ) {u t : Table κ ρ} {k : κ} (h : u.lookup k = none) :
    (merge f u.toPairs t).lookup k = t.lookup k := by
  refine merge_of_not_mem f fun r hr => ?_
  rw [Table.mem_toPairs, h] at hr
  cases hr

theorem merge_some (f : Option ρ → ρ → ρ) {u t : Table κ ρ} {k : κ} {r : ρ} (h : u.lookup k = some r) :
    (merge f u.toPairs t).lookup k = some (f (t.lookup k) r) := by
  refine merge_of_mem f ?_ (Table.mem_toPairs.mpr h)
  have hkeys : u.toPairs.map Prod.fst = u.keys := by
    unfold Table.toPairs
    rw [List.map_map]
    rfl
  rw [hkeys]
  exact u.nodupKeys

def fromKeys (f : κ → ρ) (ks : List κ) (t : Table κ ρ) : Table κ ρ := ks.foldl (fun t k => t.insert k (f k)) t

theorem fromKeys_lookup (f : κ → ρ) {k : κ} : ∀ (ks : List κ) (t : Table κ ρ),
    (fromKeys f ks t).lookup k = if k ∈ ks then some (f k) else t.lookup k
  | [], t => by simp [fromKeys]
  | k' :: ks, t => by
    have ih := fromKeys_lookup f (k := k) ks (t.insert k' (f k'))
    unfold fromKeys at ih ⊢
    rw [List.foldl_cons, ih, Table.lookup_insert_of]
    by_cases hk : k = k'
    · subst hk
      simp
    · simp [hk]

/-! ### Gates -/

/-- The keys in `ks` that are in every set so far. -/
def meet (gate : Option (List κ)) (ks : List κ) : List κ :=
  match gate with
  | none => ks
  | some g => g.filter (· ∈ ks)

theorem mem_meet {gate : Option (List κ)} {ks : List κ} {k : κ} :
    k ∈ meet gate ks ↔ (∀ g ∈ gate, k ∈ g) ∧ k ∈ ks := by
  cases gate <;> simp [meet]

/-- The keys in `ks` or in a set so far. -/
def join (sofar : Option (List κ)) (ks : List κ) : List κ :=
  match sofar with
  | none => ks
  | some g => g ∪ ks

theorem mem_join {sofar : Option (List κ)} {ks : List κ} {k : κ} :
    k ∈ join sofar ks ↔ (∃ g ∈ sofar, k ∈ g) ∨ k ∈ ks := by
  cases sofar <;> simp [join]

/-! ### Two counts -/

theorem greatest_agree_iff {ι : Type} {R : ι → Prop} {small large : ι → ℕ} (hle : ∀ i, small i ≤ large i) {m : ℕ}
    (h : IsGreatest {n | ∃ i, R i ∧ n = large i} m) :
    IsGreatest {n | ∃ i, R i ∧ n = small i} m ↔ ∃ i, R i ∧ small i = large i ∧ ∀ j, R j → large j ≤ large i := by
  obtain ⟨⟨i₀, hi₀, rfl⟩, hub⟩ := h
  constructor
  · rintro ⟨⟨i, hi, heq⟩, -⟩
    have hmost : ∀ j, R j → large j ≤ large i₀ := fun j hj => hub ⟨j, hj, rfl⟩
    have hi' : large i = large i₀ := le_antisymm (hmost i hi) (heq ▸ hle i)
    exact ⟨i, hi, by rw [hi', heq], fun j hj => hi' ▸ hmost j hj⟩
  · rintro ⟨i, hi, heq, hmost⟩
    have hi' : large i₀ = large i := le_antisymm (hmost i₀ hi₀) (hub ⟨i, hi, rfl⟩)
    refine ⟨⟨i, hi, by rw [hi', heq]⟩, ?_⟩
    rintro n ⟨j, hj, rfl⟩
    exact (hle j).trans (hub ⟨j, hj, rfl⟩)

/-- A row says the greatest of the counts, where there is one. -/
structure Tops (S : Set ℕ) (row : Option ρ) (count : ρ → ℕ) : Prop where
  isSome : row.isSome = true ↔ S.Nonempty
  greatest : ∀ r ∈ row, IsGreatest S (count r)

theorem Tops.empty {count : ρ → ℕ} : Tops ∅ (none : Option ρ) count := by
  refine ⟨by simp, ?_⟩
  rintro r ⟨⟩

theorem Tops.union_none {S T : Set ℕ} {held : Option ρ} {count : ρ → ℕ} (hS : Tops S held count)
    (hT : Tops T (none : Option ρ) count) : Tops (S ∪ T) held count := by
  have hempty : T = ∅ := Set.not_nonempty_iff_eq_empty.mp fun hne => by simpa using hT.isSome.mpr hne
  rw [hempty, Set.union_empty]
  exact hS

theorem Tops.union_some {S T : Set ℕ} {held : Option ρ} {new made : ρ} {count : ρ → ℕ} (hS : Tops S held count)
    (hT : Tops T (some new) count) (hnone : held = none → made = new)
    (hsome : ∀ r ∈ held, count made = max (count r) (count new)) : Tops (S ∪ T) (some made) count := by
  have hgT := hT.greatest new rfl
  refine ⟨by simp [Set.Nonempty.inr ⟨_, hgT.1⟩], ?_⟩
  rintro r ⟨⟩
  cases held with
  | none =>
    have hempty : S = ∅ := Set.not_nonempty_iff_eq_empty.mp fun hne => by simpa using hS.isSome.mpr hne
    rw [hempty, Set.empty_union, hnone rfl]
    exact hgT
  | some r =>
    rw [hsome r rfl]
    exact (hS.greatest r rfl).union hgT

end Tally

end Mantle
