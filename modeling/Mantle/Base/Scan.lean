import Mathlib.Data.List.DropRight
import Mathlib.Data.List.Infix
import Mathlib.Tactic.Tauto

/-!
# Mantle.Base.Scan — texts cut at separators, searched and stripped

A search takes the matches from left to right without overlap; a replacement takes out the first occurrence.
-/

namespace Scan

variable {α β : Type}

/-- The runs between separators; `cur` is the run that is open. -/
def words (sep : α → Bool) (cur : List α) : List α → List (List α)
  | [] => if cur = [] then [] else [cur]
  | c :: s => if sep c then (if cur = [] then [] else [cur]) ++ words sep [] s else words sep (cur ++ [c]) s

/-- The texts with one character between. -/
def join (c : α) : List (List α) → List α
  | [] => []
  | [x] => x
  | x :: y :: l => x ++ c :: join c (y :: l)

/-- Without the separators at either end. -/
def strip (sep : α → Bool) (s : List α) : List α := (s.dropWhile sep).rdropWhile sep

/-- The matches from left to right; `skip` characters belong to the last one. -/
def findAll (m : List α → Option (β × ℕ)) (skip : ℕ) : List α → List β
  | [] => []
  | c :: s =>
    match skip with
    | k + 1 => findAll m k s
    | 0 =>
      match m (c :: s) with
      | some (b, n) => b :: findAll m (n - 1) s
      | none => findAll m 0 s

/-- Without the first occurrence of `g`. -/
def replaceFirst [DecidableEq α] (g : List α) : List α → List α
  | [] => []
  | c :: s => if g.isPrefixOf (c :: s) then (c :: s).drop g.length else c :: replaceFirst g s

/-! ### Runs -/

section Words

variable {sep : α → Bool}

theorem words_cons {cur s : List α} {c : α} : words sep cur (c :: s) =
    if sep c then (if cur = [] then [] else [cur]) ++ words sep [] s else words sep (cur ++ [c]) s := rfl

theorem words_append_sep {cur a b : List α} {c : α} (hc : sep c = true) :
    words sep cur (a ++ c :: b) = words sep cur a ++ words sep [] b := by
  induction a generalizing cur with
  | nil =>
    rw [List.nil_append, words_cons, if_pos hc]
    rfl
  | cons d a ih =>
    rw [List.cons_append, words_cons, words_cons]
    by_cases hd : sep d = true
    · rw [if_pos hd, if_pos hd, ih, List.append_assoc]
    · rw [if_neg hd, if_neg hd, ih]

theorem words_run {cur w : List α} (hw : ∀ c ∈ w, sep c = false) :
    words sep cur w = if cur ++ w = [] then [] else [cur ++ w] := by
  induction w generalizing cur with
  | nil => rw [List.append_nil]; rfl
  | cons c w ih =>
    have hc := hw c List.mem_cons_self
    rw [words_cons, if_neg (by simp [hc]), ih fun d hd => hw d (List.mem_cons_of_mem _ hd), List.append_assoc]
    rfl

theorem words_single {w : List α} (hw : ∀ c ∈ w, sep c = false) (hne : w ≠ []) : words sep [] w = [w] := by
  rw [words_run hw, List.nil_append, if_neg hne]

theorem words_join {c : α} (hc : sep c = true) : ∀ {l : List (List α)},
    (∀ w ∈ l, w ≠ [] ∧ ∀ d ∈ w, sep d = false) → words sep [] (join c l) = l
  | [], _ => rfl
  | [w], h => words_single (h w List.mem_cons_self).2 (h w List.mem_cons_self).1
  | w :: v :: l, h => by
    have hw := h w List.mem_cons_self
    show words sep [] (w ++ c :: join c (v :: l)) = _
    rw [words_append_sep hc, words_single hw.2 hw.1, words_join hc fun u hu => h u (List.mem_cons_of_mem _ hu)]
    rfl

theorem words_spec {cur s : List α} (hcur : ∀ c ∈ cur, sep c = false) :
    ∀ w ∈ words sep cur s, w ≠ [] ∧ (∀ c ∈ w, sep c = false) ∧ w <:+: cur ++ s := by
  induction s generalizing cur with
  | nil =>
    intro w hw
    unfold words at hw
    split_ifs at hw with hnil
    · cases hw
    · rw [List.mem_singleton.mp hw]
      exact ⟨hnil, hcur, by rw [List.append_nil]⟩
  | cons c s ih =>
    intro w hw
    unfold words at hw
    split_ifs at hw with hc hnil
    · obtain ⟨hne, hrun, hin⟩ := @ih [] (by simp) w hw
      exact ⟨hne, hrun, hin.trans ⟨cur ++ [c], [], by simp⟩⟩
    · rcases List.mem_cons.mp hw with rfl | hw
      · exact ⟨hnil, hcur, ⟨[], c :: s, by simp⟩⟩
      · obtain ⟨hne, hrun, hin⟩ := @ih [] (by simp) w hw
        exact ⟨hne, hrun, hin.trans ⟨cur ++ [c], [], by simp⟩⟩
    · have hcur' : ∀ d ∈ cur ++ [c], sep d = false := by
        intro d hd
        rcases List.mem_append.mp hd with hd | hd
        · exact hcur d hd
        · rw [List.mem_singleton.mp hd]
          simpa using hc
      obtain ⟨hne, hrun, hin⟩ := ih hcur' w hw
      exact ⟨hne, hrun, by rwa [List.append_assoc] at hin⟩

end Words

/-! ### Joins -/

theorem join_cons {c : α} {x : List α} {l : List (List α)} (h : l ≠ []) : join c (x :: l) = x ++ c :: join c l := by
  cases l with
  | nil => exact absurd rfl h
  | cons y l => rfl

theorem join_append {c : α} : ∀ {k l : List (List α)}, k ≠ [] → l ≠ [] →
    join c (k ++ l) = join c k ++ c :: join c l
  | [x], l, _, hl => join_cons hl
  | x :: y :: k, l, _, hl => by
    have ih := join_append (c := c) (k := y :: k) (l := l) (by simp) hl
    show x ++ c :: join c (y :: k ++ l) = _
    rw [ih]
    show _ = x ++ c :: join c (y :: k) ++ c :: join c l
    simp

/-! ### Replacement -/

theorem replaceFirst_append [DecidableEq α] {g rest : List α} (hg : g ≠ []) : ∀ (pre : List α),
    (∀ y, y ≠ [] → y <:+ pre → ¬g <+: y ++ g ++ rest) → replaceFirst g (pre ++ g ++ rest) = pre ++ rest
  | [], _ => by
    obtain ⟨c, g', rfl⟩ := List.exists_cons_of_ne_nil hg
    have hpre : (c :: g').isPrefixOf (c :: (g' ++ rest)) = true :=
      List.isPrefixOf_iff_prefix.mpr ⟨rest, by simp⟩
    show (if (c :: g').isPrefixOf (c :: (g' ++ rest)) = true then _ else _) = _
    rw [if_pos hpre]
    simp
  | c :: pre, h => by
    have hno : ¬g.isPrefixOf (c :: (pre ++ g ++ rest)) = true := by
      rw [List.isPrefixOf_iff_prefix]
      have := h (c :: pre) (by simp) (List.suffix_refl _)
      simpa using this
    show (if g.isPrefixOf (c :: (pre ++ g ++ rest)) = true then _ else _) = _
    rw [if_neg hno]
    exact congrArg (c :: ·) (replaceFirst_append hg pre fun y hy hsuf => h y hy (hsuf.trans (List.suffix_cons _ _)))

/-! ### Search -/

section FindAll

variable {m : List α → Option (β × ℕ)}

theorem findAll_skip : ∀ (k : ℕ) (s : List α), findAll m k s = findAll m 0 (s.drop k)
  | 0, s => by simp
  | k + 1, [] => by simp [findAll]
  | k + 1, c :: s => by
    rw [List.drop_succ_cons, ← findAll_skip k s]
    rfl

theorem findAll_none {c : α} {s : List α} (h : m (c :: s) = none) : findAll m 0 (c :: s) = findAll m 0 s := by
  conv_lhs => unfold findAll
  simp only [h]

theorem findAll_some {c : α} {s : List α} {b : β} {n : ℕ} (h : m (c :: s) = some (b, n)) (hn : 0 < n) :
    findAll m 0 (c :: s) = b :: findAll m 0 ((c :: s).drop n) := by
  conv_lhs => unfold findAll
  simp only [h]
  rw [findAll_skip]
  obtain ⟨k, rfl⟩ := Nat.exists_eq_add_of_lt hn
  simp

theorem findAll_append {x : List α} {s : List α} (h : ∀ y, y ≠ [] → y <:+ x → m (y ++ s) = none) :
    findAll m 0 (x ++ s) = findAll m 0 s := by
  induction x with
  | nil => rfl
  | cons c x ih =>
    have hc : m (c :: (x ++ s)) = none := h (c :: x) (by simp) (List.suffix_refl _)
    rw [List.cons_append, findAll_none hc]
    exact ih fun y hy hsuf => h y hy (hsuf.trans (List.suffix_cons _ _))

end FindAll

/-! ### Strips -/

section Strip

variable {sep : α → Bool}

theorem strip_infix {s : List α} : strip sep s <:+: s :=
  (List.rdropWhile_prefix sep _).isInfix.trans (List.dropWhile_suffix sep).isInfix

theorem strip_pad (pre s post : List α) (hpre : ∀ c ∈ pre, sep c = true) (hpost : ∀ c ∈ post, sep c = true)
    (hhead : ∀ c ∈ s.head?, sep c = false) (hlast : ∀ c ∈ s.getLast?, sep c = false) :
    strip sep (pre ++ s ++ post) = s := by
  have hends : ∀ {s : List α}, (∀ c ∈ s.head?, sep c = false) → s.dropWhile sep = s := by
    intro s hs
    cases s with
    | nil => rfl
    | cons c s => rw [List.dropWhile_cons_of_neg (by simp [hs c rfl])]
  unfold strip
  rw [List.append_assoc, List.dropWhile_append_of_pos hpre]
  by_cases hs : s = []
  · rw [hs, List.nil_append, List.dropWhile_eq_nil_iff.mpr hpost]
    rfl
  · have hdrop : (s ++ post).dropWhile sep = s ++ post := hends (by rwa [List.head?_append_of_ne_nil _ hs])
    rw [hdrop]
    unfold List.rdropWhile
    rw [List.reverse_append, List.dropWhile_append_of_pos fun c hc => hpost c (List.mem_reverse.mp hc),
      hends (by rwa [List.head?_reverse]), List.reverse_reverse]

end Strip

/-! ### Texts with more written after them -/

section Before

variable {m : List α → Option (β × ℕ)} {sep : α → Bool} {v : List α}

theorem findAll_match {c : α} {s : List α} {b : β} {n : ℕ} (h : m (c :: s) = some (b, n)) :
    findAll m 0 (c :: s) = b :: findAll m (n - 1) s := by
  conv_lhs => unfold findAll
  simp only [h]

theorem findAll_before (hm : ∀ s, s ≠ [] → m (s ++ v) = m s) (hlen : ∀ s b n, m s = some (b, n) → n ≤ s.length) :
    ∀ (s : List α) (k : ℕ), k ≤ s.length → findAll m k (s ++ v) = findAll m k s ++ findAll m 0 v
  | [], k, hk => by
    rw [Nat.le_zero.mp hk]
    rfl
  | c :: s, k + 1, hk => findAll_before hm hlen s k (Nat.le_of_succ_le_succ hk)
  | c :: s, 0, _ => by
    have hcs := hm (c :: s) (by simp)
    cases hmatch : m (c :: s) with
    | none =>
      rw [List.cons_append, findAll_none hmatch, findAll_none (by rw [← List.cons_append, hcs, hmatch])]
      exact findAll_before hm hlen s 0 (Nat.zero_le _)
    | some r =>
      obtain ⟨b, n⟩ := r
      have hn := hlen _ _ _ hmatch
      rw [List.length_cons] at hn
      rw [hmatch, List.cons_append] at hcs
      rw [List.cons_append, findAll_match hcs, findAll_match hmatch, findAll_before hm hlen s (n - 1) (by omega)]
      rfl

theorem mem_findAll {b : β} : ∀ {s : List α} {k : ℕ}, b ∈ findAll m k s → ∃ s' n, m s' = some (b, n)
  | [], _, h => by cases h
  | c :: s, k + 1, h => mem_findAll (s := s) (k := k) h
  | c :: s, 0, h => by
    cases hmatch : m (c :: s) with
    | none =>
      rw [findAll_none hmatch] at h
      exact mem_findAll h
    | some r =>
      obtain ⟨b', n⟩ := r
      rw [findAll_match hmatch] at h
      rcases List.mem_cons.mp h with rfl | h
      · exact ⟨_, _, hmatch⟩
      · exact mem_findAll h

variable [DecidableEq α] {g : List α}

theorem replaceFirst_none (h : ∀ y, y <:+ v → ¬g <+: y) : replaceFirst g v = v := by
  induction v with
  | nil => rfl
  | cons c v ih =>
    unfold replaceFirst
    rw [if_neg fun hpre => h _ (List.suffix_refl _) (List.isPrefixOf_iff_prefix.mp hpre),
      ih fun y hy => h y (hy.trans (List.suffix_cons _ _))]

theorem replaceFirst_before (hspan : ∀ s, s ≠ [] → g <+: s ++ v → g <+: s) (hv : ∀ y, y <:+ v → ¬g <+: y) :
    ∀ r, replaceFirst g (r ++ v) = replaceFirst g r ++ v
  | [] => replaceFirst_none hv
  | c :: r => by
    rw [List.cons_append]
    unfold replaceFirst
    by_cases hpre : g <+: c :: r
    · have hlong : g <+: c :: (r ++ v) := hpre.trans (by rw [← List.cons_append]; exact List.prefix_append _ _)
      rw [if_pos (List.isPrefixOf_iff_prefix.mpr hlong), if_pos (List.isPrefixOf_iff_prefix.mpr hpre),
        ← List.cons_append, List.drop_append_of_le_length hpre.length_le]
    · have hlong : ¬g <+: c :: (r ++ v) := fun h => hpre (hspan (c :: r) (by simp) h)
      rw [if_neg (mt List.isPrefixOf_iff_prefix.mp hlong), if_neg (mt List.isPrefixOf_iff_prefix.mp hpre),
        replaceFirst_before hspan hv r, List.cons_append]

omit [DecidableEq α] in
theorem words_blank {a post : List α} (hpost : ∀ c ∈ post, sep c = true) : words sep [] (a ++ post) = words sep [] a := by
  cases post with
  | nil => rw [List.append_nil]
  | cons c post =>
    have hrest : ∀ {l : List α}, (∀ c ∈ l, sep c = true) → words sep [] l = [] := by
      intro l hl
      induction l with
      | nil => rfl
      | cons d l ih =>
        rw [words_cons, if_pos (hl d List.mem_cons_self), if_pos rfl, List.nil_append]
        exact ih fun c hc => hl c (List.mem_cons_of_mem _ hc)
    rw [words_append_sep (hpost c List.mem_cons_self), hrest fun d hd => hpost d (List.mem_cons_of_mem _ hd), List.append_nil]

omit [DecidableEq α] in
theorem strip_before {r u : List α} {c : α} (hc : sep c = true) (hhead : ∀ d ∈ u.head?, sep d = false)
    (hlast : ∀ d ∈ u.getLast?, sep d = false) (hu : u ≠ []) :
    ∃ post, (∀ d ∈ post, sep d = true) ∧
      strip sep (r ++ c :: u) = if strip sep r = [] then u else strip sep r ++ post ++ c :: u := by
  have hkeep : ∀ l : List α, (l ++ u).rdropWhile sep = l ++ u := by
    intro l
    obtain ⟨u', d, rfl⟩ := (List.eq_nil_or_concat u).resolve_left hu
    have hd := hlast d (by simp)
    rw [List.concat_eq_append, ← List.append_assoc, List.rdropWhile_concat_neg _ _ _ (by simp [hd])]
  have hfirst : (c :: u).dropWhile sep = u := by
    obtain ⟨d, u', rfl⟩ := List.exists_cons_of_ne_nil hu
    rw [List.dropWhile_cons_of_pos hc, List.dropWhile_cons_of_neg (by simp [hhead d rfl])]
  by_cases hblank : r.dropWhile sep = []
  · refine ⟨[], by simp, ?_⟩
    have hnil : strip sep r = [] := by
      unfold strip
      rw [hblank, List.rdropWhile_nil]
    rw [if_pos hnil]
    unfold strip
    rw [List.dropWhile_append, hblank, List.isEmpty_nil, if_pos rfl, hfirst]
    exact hkeep []
  · have hne : strip sep r ≠ [] := by
      unfold strip
      rw [ne_eq, List.rdropWhile_eq_nil_iff]
      intro hall
      obtain ⟨d, l, hdl⟩ := List.exists_cons_of_ne_nil hblank
      have hd := List.head?_dropWhile_not sep r
      rw [hdl] at hd
      have hsep := hall d (by rw [hdl]; exact List.mem_cons_self)
      have hnot : sep d = false := hd
      rw [hsep] at hnot
      cases hnot
    refine ⟨(r.dropWhile sep).rtakeWhile sep, fun d hd => List.mem_rtakeWhile_imp hd, ?_⟩
    rw [if_neg hne]
    have hsplit : strip sep r ++ (r.dropWhile sep).rtakeWhile sep = r.dropWhile sep := by
      unfold strip List.rdropWhile List.rtakeWhile
      rw [← List.reverse_append, List.takeWhile_append_dropWhile, List.reverse_reverse]
    rw [hsplit]
    unfold strip
    rw [List.dropWhile_append, if_neg (by simpa using hblank)]
    have := hkeep (r.dropWhile sep ++ [c])
    simpa using this

end Before

end Scan
