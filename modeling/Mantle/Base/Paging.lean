import Mantle.Base.Table

/-!
# Mantle.Base.Paging — keyset pages of an ordered list of keys

A reader that takes the first `limit` keys beyond its cursor until a page is short has read every key, once.
-/

namespace Mantle.Paging

variable {κ : Type} [LinearOrder κ]

def beyond (keys : List κ) : Option κ → List κ
  | none => keys
  | some c => keys.filter fun k => c < k

def page (keys : List κ) (after : Option κ) (limit : ℕ) : List κ := (beyond keys after).take limit

variable {keys : List κ} {after : Option κ} {limit : ℕ} {c : κ}

theorem mem_beyond_some {k : κ} : k ∈ beyond keys (some c) ↔ k ∈ keys ∧ c < k := by
  simp [beyond]

theorem beyond_sublist (keys : List κ) (after : Option κ) : (beyond keys after).Sublist keys := by
  cases after with
  | none => exact List.Sublist.refl _
  | some c => exact List.filter_sublist

theorem page_eq_of_short (h : (page keys after limit).length < limit) :
    page keys after limit = beyond keys after := by
  unfold page at h ⊢
  rw [List.length_take] at h
  exact List.take_of_length_le (by omega)

theorem beyond_last (hs : keys.Pairwise (· < ·)) (hc : (page keys after limit).getLast? = some c) :
    beyond keys (some c) = (beyond keys after).drop limit := by
  obtain ⟨pre, hpre⟩ := List.getLast?_eq_some_iff.mp hc
  have hsplit : beyond keys after = pre ++ c :: (beyond keys after).drop limit := by
    have h := (List.take_append_drop limit (beyond keys after)).symm
    rw [show (beyond keys after).take limit = pre ++ [c] from hpre] at h
    simpa using h
  have hsorted : (beyond keys after).Pairwise (· < ·) := hs.sublist (beyond_sublist keys after)
  generalize hrest : (beyond keys after).drop limit = rest at hsplit ⊢
  rw [hsplit, List.pairwise_append, List.pairwise_cons] at hsorted
  obtain ⟨-, ⟨hrestlt, -⟩, hprelt⟩ := hsorted
  -- the keys beyond the new cursor are beyond the old one
  have hinto : beyond keys (some c) = (beyond keys after).filter fun k => c < k := by
    cases after with
    | none => rfl
    | some a =>
      have hac : a < c := by
        have : c ∈ beyond keys (some a) := by
          rw [hsplit]
          simp
        exact (mem_beyond_some.mp this).2
      unfold beyond
      rw [List.filter_filter]
      refine List.filter_congr ?_
      intro k _
      by_cases hk : c < k
      · simp [hk, hac.trans hk]
      · simp [hk]
  have hfilterpre : pre.filter (fun k => c < k) = [] := by
    rw [List.filter_eq_nil_iff]
    intro k hk
    simpa using (hprelt k hk c (by simp)).le
  have hfilterrest : rest.filter (fun k => c < k) = rest := by
    rw [List.filter_eq_self]
    intro k hk
    simpa using hrestlt k hk
  rw [hinto, hsplit, List.filter_append, List.filter_cons, hfilterpre, hfilterrest]
  simp

theorem beyond_last_length (hs : keys.Pairwise (· < ·))
    (hc : (page keys after limit).getLast? = some c) (hlimit : 0 < limit) :
    (beyond keys (some c)).length < (beyond keys after).length := by
  rw [beyond_last hs hc, List.length_drop]
  have hne : beyond keys after ≠ [] := by
    intro h
    rw [page, h] at hc
    simp at hc
  have := List.length_pos_iff.mpr hne
  omega

theorem page_append_beyond (hs : keys.Pairwise (· < ·))
    (hc : (page keys after limit).getLast? = some c) :
    page keys after limit ++ beyond keys (some c) = beyond keys after := by
  rw [beyond_last hs hc]
  exact List.take_append_drop limit _

/-! ### Reading page after page -/

/-- The keys of all pages beyond a cursor.  A full page moves it on, so a fuel of one more than the number of keys never
runs out. -/
def walk (keys : List κ) (limit : ℕ) : ℕ → Option κ → List κ
  | 0, _ => []
  | fuel + 1, after =>
    let ks := page keys after limit
    match ks.getLast? with
    | none => []
    | some last => if ks.length < limit then ks else ks ++ walk keys limit fuel (some last)

theorem walk_eq (hs : keys.Pairwise (· < ·)) (hlimit : 0 < limit) :
    ∀ (fuel : ℕ) (after : Option κ), (beyond keys after).length < fuel →
      walk keys limit fuel after = beyond keys after
  | 0, _, h => absurd h (Nat.not_lt_zero _)
  | fuel + 1, after, h => by
    rw [walk]
    cases hlast : (page keys after limit).getLast? with
    | none =>
      rw [List.getLast?_eq_none_iff] at hlast
      rw [← page_eq_of_short (by rw [hlast]; exact hlimit), hlast]
    | some last =>
      dsimp only
      split_ifs with hshort
      · exact page_eq_of_short hshort
      · have hless := beyond_last_length hs hlast hlimit
        rw [walk_eq hs hlimit fuel (some last) (by omega)]
        exact page_append_beyond hs hlast

end Mantle.Paging

namespace Mantle.Table

section Keys

variable {κ ρ : Type} [LinearOrder κ]

theorem sorted_keys (t : Table κ ρ) :
    ((t.toPairs.insertionSort fun a b => a.1 ≤ b.1).map Prod.fst).Pairwise (· < ·) :=
  List.pairwise_map.mpr (sort_lt t.toPairs_keys)

def sortedKeys (t : Table κ ρ) : List κ :=
  (t.toPairs.insertionSort fun a b => a.1 ≤ b.1).map Prod.fst

theorem mem_sortedKeys {t : Table κ ρ} {k : κ} : k ∈ t.sortedKeys ↔ (t.lookup k).isSome := by
  unfold sortedKeys
  rw [((List.perm_insertionSort (fun a b : κ × ρ => a.1 ≤ b.1) t.toPairs).map Prod.fst).mem_iff,
    List.mem_map, Option.isSome_iff_exists]
  constructor
  · rintro ⟨⟨k', r⟩, he, rfl⟩
    exact ⟨r, mem_toPairs.mp he⟩
  · rintro ⟨r, hr⟩
    exact ⟨(k, r), mem_toPairs.mpr hr, rfl⟩

theorem sortedKeys_congr {t t' : Table κ ρ} (h : ∀ k, (t'.lookup k).isSome = (t.lookup k).isSome) :
    t'.sortedKeys = t.sortedKeys := by
  refine List.Pairwise.eq_of_mem_iff (sorted_keys t') (sorted_keys t) ?_
  intro k
  rw [mem_sortedKeys, mem_sortedKeys, h]

/-- Rewrite the row of a key, if there is one. -/
def adjust (f : κ → ρ → ρ) (t : Table κ ρ) (k : κ) : Table κ ρ :=
  match t.lookup k with
  | none => t
  | some r => t.insert k (f k r)

theorem lookup_adjust (f : κ → ρ → ρ) (t : Table κ ρ) (k k' : κ) :
    (t.adjust f k).lookup k' = (t.lookup k').map fun r => if k' = k then f k' r else r := by
  unfold adjust
  cases hk : t.lookup k with
  | none =>
    by_cases h : k' = k
    · subst h
      rw [hk]
      rfl
    · simp [h]
  | some r =>
    rw [lookup_insert_of]
    by_cases h : k' = k
    · subst h
      simp [hk]
    · simp [h]

end Keys

end Mantle.Table
