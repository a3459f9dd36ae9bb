import Mantle.Search.Query

/-!
# Mantle.Search.QueryControls — controls are cut out and read back

The first pass takes every control out where it is found, and leaves a text that has none.
-/

namespace Mantle

namespace Query

variable {c : Char} {k r s v : Text} {m : Text × Text}

/-! ### Characters -/

section Chars

variable {U : CharTable}

theorem isWord_space (h : isWord U c = true) : U.isSpace c = false := by
  unfold isWord at h
  rcases Bool.or_eq_true_iff.mp h with h | h
  · exact U.alnum_space c h
  · rw [of_decide_eq_true h]
    exact U.underscore

theorem mark_word (h : c ∈ ['"', '@', ':', '+', '!', '~', '=', '>', '<']) : isWord U c = false := by
  unfold isWord
  rw [(U.marks c h).1, Bool.false_or, decide_eq_false_iff_not]
  rintro rfl
  revert h
  decide

theorem mark_space (h : c ∈ ['"', '@', ':', '+', '!', '~', '=', '>', '<']) : U.isSpace c = false :=
  (U.marks c h).2

end Chars

/-! ### Controls -/

section Controls

variable {U : CharTable}

def StartsControl (U : CharTable) (s : Text) : Prop :=
  ∃ n c b, s = '@' :: n ++ ':' :: c :: b ∧ n ≠ [] ∧ (∀ d ∈ n, isWord U d = true) ∧ U.isSpace c = false

def HasControl (U : CharTable) (s : Text) : Prop := ∃ a b, s = a ++ b ∧ StartsControl U b

theorem takeWhile_run {p : Char → Bool} {n : Text} (hn : ∀ d ∈ n, p d = true) (hr : ∀ c ∈ r.head?, p c = false) :
    (n ++ r).takeWhile p = n ∧ (n ++ r).dropWhile p = r := by
  have hstop : r.takeWhile p = [] ∧ r.dropWhile p = r := by
    cases r with
    | nil => exact ⟨rfl, rfl⟩
    | cons c r =>
      have hc := hr c rfl
      exact ⟨List.takeWhile_cons_of_neg (by simp [hc]), List.dropWhile_cons_of_neg (by simp [hc])⟩
  rw [List.takeWhile_append_of_pos hn, List.dropWhile_append_of_pos hn, hstop.1, hstop.2, List.append_nil]
  exact ⟨rfl, rfl⟩

theorem controlAt_run {n : Text} (hn : n ≠ []) (hw : ∀ d ∈ n, isWord U d = true) (hv : v ≠ [])
    (hs : ∀ d ∈ v, U.isSpace d = false) (hr : ∀ c ∈ r.head?, U.isSpace c = true) :
    controlAt U (controlStr (n, v) ++ r) = some ((n, v), (controlStr (n, v)).length) := by
  have hname := takeWhile_run (r := ':' :: (v ++ r)) hw (by rintro c ⟨⟩; exact mark_word (by decide))
  have hval := takeWhile_run (p := fun c => !U.isSpace c) (n := v) (r := r) (by simpa using hs) (by simpa using hr)
  have htext : controlStr (n, v) ++ r = '@' :: (n ++ ':' :: (v ++ r)) := by simp [controlStr]
  rw [htext]
  unfold controlAt
  simp only [hname.1, hname.2, hval.1]
  rw [if_neg (by simp [hn, hv])]
  simp only [controlStr, List.cons_append, List.length_cons, List.length_append, Option.some.injEq, Prod.mk.injEq, true_and]
  omega

theorem controlAt_some {k : ℕ} (h : controlAt U s = some (m, k)) :
    ∃ r, s = controlStr m ++ r ∧ k = (controlStr m).length ∧ m.1 ≠ [] ∧ (∀ d ∈ m.1, isWord U d = true) ∧ m.2 ≠ [] ∧
      (∀ d ∈ m.2, U.isSpace d = false) ∧ ∀ c ∈ r.head?, U.isSpace c = true := by
  unfold controlAt at h
  split at h
  · rename_i s
    dsimp only at h
    split at h
    · rename_i s' hdrop
      split_ifs at h with hempty
      cases h
      simp only [Bool.or_eq_true, decide_eq_true_eq, not_or] at hempty
      refine ⟨s'.dropWhile fun c => !U.isSpace c, ?_, ?_, hempty.1, ?_, hempty.2, ?_, ?_⟩
      · have h1 := List.takeWhile_append_dropWhile (p := isWord U) (l := s)
        have h2 := List.takeWhile_append_dropWhile (p := fun c => !U.isSpace c) (l := s')
        conv_lhs => rw [← h1, hdrop, ← h2]
        simp [controlStr]
      · simp [controlStr]
        omega
      · exact fun d hd => List.mem_takeWhile_imp hd
      · intro d hd
        simpa using List.mem_takeWhile_imp hd
      · intro c hc
        have := List.head?_dropWhile_not (fun c => !U.isSpace c) s'
        rw [Option.mem_def.mp hc] at this
        simpa using this
    · cases h
  · cases h

theorem startsControl_iff : StartsControl U s ↔ controlAt U s ≠ none := by
  constructor
  · rintro ⟨n, c, b, rfl, hn, hw, hc⟩ hnone
    have hsplit := List.takeWhile_append_dropWhile (p := fun c => !U.isSpace c) (l := c :: b)
    have hmatch := controlAt_run (U := U) (n := n) (v := (c :: b).takeWhile fun c => !U.isSpace c)
      (r := (c :: b).dropWhile fun c => !U.isSpace c) hn hw
      (by rw [List.takeWhile_cons_of_pos (by simp [hc])]; simp)
      (fun d hd => by simpa using List.mem_takeWhile_imp hd)
      (by
        intro d hd
        have := List.head?_dropWhile_not (fun c => !U.isSpace c) (c :: b)
        rw [Option.mem_def.mp hd] at this
        simpa using this)
    have htext : controlStr (n, (c :: b).takeWhile fun c => !U.isSpace c) ++ (c :: b).dropWhile (fun c => !U.isSpace c) =
        '@' :: n ++ ':' :: c :: b := by
      conv_rhs => rw [← hsplit]
      simp [controlStr]
    rw [htext, hnone] at hmatch
    cases hmatch
  · intro h
    obtain ⟨⟨m, k⟩, hm⟩ := Option.ne_none_iff_exists'.mp h
    obtain ⟨r, rfl, -, hn, hw, hv, hs, -⟩ := controlAt_some hm
    obtain ⟨c, v, hcv⟩ := List.exists_cons_of_ne_nil hv
    refine ⟨m.1, c, v ++ r, by simp [controlStr, hcv], hn, hw, hs c (by simp [hcv])⟩

theorem StartsControl.append (h : StartsControl U s) (r : Text) : StartsControl U (s ++ r) := by
  obtain ⟨n, c, b, rfl, hn, hw, hc⟩ := h
  exact ⟨n, c, b ++ r, by simp, hn, hw, hc⟩

theorem StartsControl.of_append (h : StartsControl U (s ++ r)) (hr : ∀ c ∈ r.head?, U.isSpace c = true) :
    StartsControl U s := by
  obtain ⟨n, c, b, heq, hn, hw, hc⟩ := h
  have hnospace : ∀ d ∈ '@' :: n ++ [':', c], U.isSpace d = false := by
    intro d hd
    simp only [List.cons_append, List.mem_cons, List.mem_append, List.not_mem_nil, or_false] at hd
    rcases hd with rfl | hd | rfl | rfl
    · exact mark_space (by decide)
    · exact isWord_space (hw d hd)
    · exact mark_space (by decide)
    · exact hc
  have heq' : s ++ r = ('@' :: n ++ [':', c]) ++ b := by simpa using heq
  rcases List.append_eq_append_iff.mp heq' with ⟨t, ht, hr'⟩ | ⟨t, ht, -⟩
  · -- the text ends inside the control: what follows is no space
    cases t with
    | nil =>
      refine ⟨n, c, [], ?_, hn, hw, hc⟩
      simpa using ht.symm
    | cons d t =>
      have hd := hr d (by rw [hr']; rfl)
      rw [hnospace d (by rw [ht]; simp)] at hd
      cases hd
  · exact ⟨n, c, t, by simpa using ht, hn, hw, hc⟩

theorem HasControl.of_infix {t : Text} (h : HasControl U s) (hin : s <:+: t) : HasControl U t := by
  obtain ⟨a, b, rfl, hb⟩ := h
  obtain ⟨x, y, rfl⟩ := hin
  exact ⟨x ++ a, b ++ y, by simp, hb.append y⟩

theorem hasControl_space {a b : Text} (hc : U.isSpace c = true) :
    HasControl U (a ++ c :: b) ↔ HasControl U a ∨ HasControl U b := by
  constructor
  · rintro ⟨x, y, heq, hy⟩
    rcases List.append_eq_append_iff.mp heq with ⟨t, rfl, ht⟩ | ⟨t, rfl, rfl⟩
    · cases t with
      | nil =>
        rw [List.nil_append] at ht
        obtain ⟨n, d, b', hy', -⟩ := hy
        rw [← ht] at hy'
        cases hy'
        rw [mark_space (by decide)] at hc
        cases hc
      | cons d t =>
        cases ht
        exact .inr ⟨t, y, rfl, hy⟩
    · cases t with
      | nil =>
        obtain ⟨n, d, b', hy', -⟩ := hy
        cases hy'
        rw [mark_space (by decide)] at hc
        cases hc
      | cons d t => exact .inl ⟨x, d :: t, rfl, hy.of_append (by rintro e ⟨⟩; exact hc)⟩
  · rintro (h | h)
    · exact h.of_infix ⟨[], c :: b, by simp⟩
    · exact h.of_infix ⟨a ++ [c], [], by simp⟩

/-- No control starts in the text, whatever follows it. -/
def Quiet (U : CharTable) (s : Text) : Prop := ∀ y, y ≠ [] → y <:+ s → ∀ r, ¬StartsControl U (y ++ r)

theorem quiet_space (hc : U.isSpace c = true) (h : ¬HasControl U s) : Quiet U (s ++ [c]) := by
  intro y hy hsuf r hstart
  rcases List.suffix_concat_iff.mp hsuf with rfl | ⟨t, rfl, x, rfl⟩
  · exact hy rfl
  · rw [List.append_assoc] at hstart
    exact h ⟨x, t, rfl, hstart.of_append (by rintro e ⟨⟩; exact hc)⟩

theorem replace_control {pre : Text} (hm : StartsControl U (controlStr m))
    (h : ∀ y, y ≠ [] → y <:+ pre → ¬StartsControl U (y ++ (controlStr m ++ r))) :
    Scan.replaceFirst (controlStr m) (pre ++ (controlStr m ++ r)) = pre ++ r := by
  rw [← List.append_assoc]
  refine Scan.replaceFirst_append (by simp [controlStr]) pre fun y hy hsuf hpre => h y hy hsuf ?_
  obtain ⟨z, hz⟩ := hpre
  rw [← List.append_assoc, ← hz]
  exact hm.append z

/-- **The first pass leaves no control**: the matches are taken out where they are found. -/
theorem controls_cut : ∀ (k : ℕ) (s pre : Text), s.length ≤ k →
    (∀ y, y ≠ [] → y <:+ pre → ¬StartsControl U (y ++ s)) →
    ¬HasControl U ((findControls U s).foldl (fun remaining m => Scan.replaceFirst (controlStr m) remaining) (pre ++ s))
  | _, [], pre, _, h => by
    rintro ⟨a, b, heq, hb⟩
    have hpre : pre = a ++ b := by simpa [findControls, Scan.findAll] using heq
    have hne : b ≠ [] := by
      rintro rfl
      obtain ⟨n, c, b', h', -⟩ := hb
      cases h'
    exact h b hne ⟨a, hpre.symm⟩ (by simpa using hb)
  | k + 1, c :: s, pre, hlen, h => by
    cases hm : controlAt U (c :: s) with
    | none =>
      have hfind : findControls U (c :: s) = findControls U s := Scan.findAll_none hm
      rw [hfind, show pre ++ c :: s = (pre ++ [c]) ++ s by simp]
      refine controls_cut k s (pre ++ [c]) (by simpa using hlen) fun y hy hsuf hstart => ?_
      rcases List.suffix_concat_iff.mp hsuf with rfl | ⟨t, rfl, hsuf'⟩
      · exact hy rfl
      · rw [List.append_assoc] at hstart
        by_cases hnil : t = []
        · rw [hnil] at hstart
          exact startsControl_iff.mp hstart hm
        · exact h t hnil hsuf' hstart
    | some found =>
      obtain ⟨m, n⟩ := found
      obtain ⟨r, heq, rfl, hn, hw, hv, hs, hr⟩ := controlAt_some hm
      have hpos : 0 < (controlStr m).length := by simp [controlStr]
      have hfind : findControls U (c :: s) = m :: findControls U r := by
        unfold findControls
        rw [Scan.findAll_some hm hpos, heq, List.drop_left]
      have hstart : StartsControl U (controlStr m) := by
        obtain ⟨d, v, hdv⟩ := List.exists_cons_of_ne_nil hv
        exact ⟨m.1, d, v, by simp [controlStr, hdv], hn, hw, hs d (by simp [hdv])⟩
      rw [heq] at h ⊢
      rw [← heq, hfind, heq, List.foldl_cons, replace_control hstart h]
      refine controls_cut k r pre ?_ fun y hy hsuf hstart' => ?_
      · have := congrArg List.length heq
        rw [List.length_append] at this
        simp only [List.length_cons] at this hlen
        omega
      · exact h y hy hsuf ((hstart'.of_append hr).append _)

theorem extractControls_quiet (q : Text) : ¬HasControl U (extractControls U q).1 := by
  intro h
  refine controls_cut (U := U) q.length q [] le_rfl ?_ (h.of_infix Scan.strip_infix)
  intro y hy hsuf
  exact absurd (List.suffix_nil.mp hsuf) hy

end Controls

/-! ### Controls as they are spelled -/

section Spelled

variable {U : CharTable}

structure Recorded (U : CharTable) (c : Text × Text) : Prop where
  name : c.1 ≠ []
  word : ∀ d ∈ c.1, isWord U d = true
  value : c.2 ≠ []
  run : ∀ d ∈ c.2, U.isSpace d = false
  lowerName : U.lower c.1 = c.1
  lowerValue : U.lower c.2 = c.2

theorem Recorded.at {c : Text × Text} (h : Recorded U c) (hr : ∀ d ∈ r.head?, U.isSpace d = true) :
    controlAt U (controlStr c ++ r) = some (c, (controlStr c).length) :=
  controlAt_run h.name h.word h.value h.run hr

theorem Recorded.starts {c : Text × Text} (h : Recorded U c) : StartsControl U (controlStr c) := by
  have hat := h.at (r := []) (by simp)
  rw [List.append_nil] at hat
  rw [startsControl_iff, hat]
  simp

theorem Quiet.not_hasControl (h : Quiet U s) : ¬HasControl U s := by
  rintro ⟨a, b, rfl, hb⟩
  refine h b ?_ ⟨a, rfl⟩ [] (by rwa [List.append_nil])
  rintro rfl
  obtain ⟨n, c, b', h', -⟩ := hb
  cases h'

theorem quiet_nil : Quiet U [] := fun _ hy hsuf => absurd (List.suffix_nil.mp hsuf) hy

theorem findControls_spelled : ∀ {cs : List (Text × Text)} (pre : Text), (∀ c ∈ cs, Recorded U c) → Quiet U pre →
    findControls U (pre ++ Scan.join ' ' (cs.map controlStr)) = cs
  | [], pre, _, hq => by
    have hskip : findControls U (pre ++ []) = findControls U [] :=
      Scan.findAll_append fun y hy hsuf => not_not.mp (mt startsControl_iff.mpr (hq y hy hsuf []))
    exact hskip
  | c :: cs, pre, h, hq => by
    have hc := h c List.mem_cons_self
    have hcs := fun d hd => h d (List.mem_cons_of_mem _ hd)
    have hskip : ∀ s, findControls U (pre ++ s) = findControls U s := fun s =>
      Scan.findAll_append fun y hy hsuf => not_not.mp (mt startsControl_iff.mpr (hq y hy hsuf s))
    rw [hskip]
    have hstep : ∀ r : Text, (∀ d ∈ r.head?, U.isSpace d = true) →
        findControls U (controlStr c ++ r) = c :: findControls U r := by
      intro r hr
      have hat := hc.at hr
      have hpos : 0 < (controlStr c).length := by simp [controlStr]
      unfold findControls
      rw [show controlStr c ++ r = '@' :: (c.1 ++ ':' :: c.2 ++ r) by simp [controlStr]] at hat ⊢
      rw [Scan.findAll_some hat hpos]
      simp [controlStr]
    cases cs with
    | nil =>
      have := hstep [] (by simp)
      rwa [List.append_nil] at this
    | cons d cs =>
      rw [List.map_cons, Scan.join_cons (by simp), hstep _ (by rintro e ⟨⟩; exact U.space)]
      exact congrArg (c :: ·) (findControls_spelled [' '] hcs
        (by simpa using quiet_space U.space (Quiet.not_hasControl quiet_nil)))

theorem replace_spelled : ∀ {cs : List (Text × Text)} (pre : Text), (∀ c ∈ cs, Recorded U c) → Quiet U pre →
    ∃ post, (∀ d ∈ post, U.isSpace d = true) ∧
      cs.foldl (fun remaining m => Scan.replaceFirst (controlStr m) remaining)
        (pre ++ Scan.join ' ' (cs.map controlStr)) = pre ++ post
  | [], pre, _, _ => ⟨[], by simp, rfl⟩
  | c :: cs, pre, h, hq => by
    have hc := h c List.mem_cons_self
    have hcs := fun d hd => h d (List.mem_cons_of_mem _ hd)
    have hcut : ∀ r, Scan.replaceFirst (controlStr c) (pre ++ (controlStr c ++ r)) = pre ++ r := fun r =>
      replace_control hc.starts fun y hy hsuf => hq y hy hsuf _
    cases cs with
    | nil =>
      refine ⟨[], by simp, ?_⟩
      have := hcut []
      rwa [List.append_nil] at this
    | cons d cs =>
      obtain ⟨post, hpost, heq⟩ := replace_spelled (pre ++ [' ']) hcs (quiet_space U.space hq.not_hasControl)
      refine ⟨' ' :: post, ?_, ?_⟩
      · rw [List.forall_mem_cons]
        exact ⟨U.space, hpost⟩
      · rw [List.map_cons, Scan.join_cons (by simp), List.foldl_cons, hcut]
        rw [List.append_assoc] at heq
        rw [List.append_assoc] at heq
        exact heq

theorem dictSet_new : ∀ {d : List (Text × Text)}, k ∉ d.map Prod.fst → dictSet k v d = d ++ [(k, v)]
  | [], _ => rfl
  | e :: d, h => by
    rw [List.map_cons, List.mem_cons, not_or] at h
    unfold dictSet
    rw [if_neg fun he => h.1 he.symm, dictSet_new h.2]
    rfl

theorem record_spelled : ∀ {cs : List (Text × Text)} (acc : List (Text × Text)), (∀ c ∈ cs, Recorded U c) → ((acc ++ cs).map Prod.fst).Nodup →
    cs.foldl (fun controls m => dictSet (U.lower m.1) (U.lower m.2) controls) acc = acc ++ cs
  | [], acc, _, _ => (List.append_nil acc).symm
  | c :: cs, acc, h, hnodup => by
    have hc := h c List.mem_cons_self
    have hnew : c.1 ∉ acc.map Prod.fst := by
      rw [List.map_append, List.nodup_append] at hnodup
      intro hmem
      exact hnodup.2.2 c.1 hmem c.1 (by simp) rfl
    rw [List.foldl_cons, hc.lowerName, hc.lowerValue, dictSet_new hnew,
      record_spelled _ (fun d hd => h d (List.mem_cons_of_mem _ hd)) (by simpa using hnodup)]
    simp

theorem mem_dictSet {e : Text × Text} : ∀ {d : List (Text × Text)}, e ∈ dictSet k v d → e = (k, v) ∨ e ∈ d
  | [], h => .inl (List.mem_singleton.mp h)
  | e' :: d, h => by
    unfold dictSet at h
    split_ifs at h with hk
    · rcases List.mem_cons.mp h with h | h
      · exact .inl h
      · exact .inr (List.mem_cons_of_mem _ h)
    · rcases List.mem_cons.mp h with h | h
      · exact .inr (h ▸ List.mem_cons_self)
      · exact (mem_dictSet h).imp id (List.mem_cons_of_mem _)

theorem keys_dictSet : ∀ {d : List (Text × Text)},
    (dictSet k v d).map Prod.fst = if k ∈ d.map Prod.fst then d.map Prod.fst else d.map Prod.fst ++ [k]
  | [] => by simp [dictSet]
  | e :: d => by
    unfold dictSet
    by_cases hk : e.1 = k
    · rw [if_pos hk]
      simp [hk]
    · rw [if_neg hk, List.map_cons, keys_dictSet]
      have hk' : ¬k = e.1 := fun h => hk h.symm
      by_cases hmem : k ∈ d.map Prod.fst
      · rw [if_pos hmem, if_pos (by simpa using .inr (by simpa using hmem))]
        rfl
      · rw [if_neg hmem, if_neg (by simpa [hk'] using hmem)]
        rfl

theorem nodup_dictSet {d : List (Text × Text)} (h : (d.map Prod.fst).Nodup) :
    ((dictSet k v d).map Prod.fst).Nodup := by
  rw [keys_dictSet]
  split_ifs with hk
  · exact h
  · rw [List.nodup_append]
    refine ⟨h, by simp, ?_⟩
    rintro a ha b hb rfl
    exact hk (List.mem_singleton.mp hb ▸ ha)

theorem findControls_spec : ∀ (k : ℕ) (s : Text), s.length ≤ k → m ∈ findControls U s →
    m.1 ≠ [] ∧ (∀ d ∈ m.1, isWord U d = true) ∧ m.2 ≠ [] ∧ ∀ d ∈ m.2, U.isSpace d = false
  | _, [], _, h => by cases h
  | k + 1, c :: s, hlen, h => by
    rw [List.length_cons, Nat.add_le_add_iff_right] at hlen
    cases hm : controlAt U (c :: s) with
    | none =>
      rw [show findControls U (c :: s) = findControls U s from Scan.findAll_none hm] at h
      exact findControls_spec k s hlen h
    | some found =>
      obtain ⟨m', n⟩ := found
      obtain ⟨r, heq, rfl, hn, hw, hv, hs, -⟩ := controlAt_some hm
      have hpos : 0 < (controlStr m').length := by simp [controlStr]
      unfold findControls at h
      rw [Scan.findAll_some hm hpos, heq, List.drop_left] at h
      rcases List.mem_cons.mp h with rfl | h
      · exact ⟨hn, hw, hv, hs⟩
      · refine findControls_spec k r ?_ h
        have := congrArg List.length heq
        rw [List.length_append, List.length_cons] at this
        omega

/-- **What the first pass records.** -/
theorem extractControls_recorded {q : Text}
    (hnames : ∀ m ∈ findControls U q, ∀ c ∈ U.lower m.1, isWord U c = true) :
    (∀ c ∈ (extractControls U q).2, Recorded U c) ∧ ((extractControls U q).2.map Prod.fst).Nodup := by
  have hfold : ∀ (ms acc : List (Text × Text)), (∀ m ∈ ms, m ∈ findControls U q) →
      (∀ c ∈ acc, Recorded U c) → (acc.map Prod.fst).Nodup →
      (∀ c ∈ ms.foldl (fun controls m => dictSet (U.lower m.1) (U.lower m.2) controls) acc, Recorded U c) ∧
        ((ms.foldl (fun controls m => dictSet (U.lower m.1) (U.lower m.2) controls) acc).map Prod.fst).Nodup := by
    intro ms
    induction ms with
    | nil => exact fun acc _ hacc hnodup => ⟨hacc, hnodup⟩
    | cons m ms ih =>
      intro acc hms hacc hnodup
      rw [List.foldl_cons]
      refine ih _ (fun m' hm' => hms m' (List.mem_cons_of_mem _ hm')) ?_ (nodup_dictSet hnodup)
      intro c hc
      rcases mem_dictSet hc with rfl | hc
      · have hm := hms m List.mem_cons_self
        obtain ⟨hn, hw, hv, hs⟩ := findControls_spec q.length q le_rfl hm
        exact ⟨mt (U.lower_nil _).mp hn, hnames m hm, mt (U.lower_nil _).mp hv, U.lower_space _ hs, U.lower_lower _,
          U.lower_lower _⟩
      · exact hacc c hc
  exact hfold _ [] (fun m hm => hm) (by simp) (by simp)

/-- **Controls written after a text are read back**, and leave the text. -/
theorem extractControls_spelled {body : Text} {cs : List (Text × Text)} (hbody : ¬HasControl U body)
    (hhead : ∀ c ∈ body.head?, U.isSpace c = false) (hlast : ∀ c ∈ body.getLast?, U.isSpace c = false)
    (hcs : ∀ c ∈ cs, Recorded U c) (hnodup : (cs.map Prod.fst).Nodup) :
    extractControls U (Scan.join ' ' ((if body = [] then [] else [body]) ++ cs.map controlStr)) = (body, cs) := by
  have hpre : ∃ pre gap, (∀ c ∈ gap, U.isSpace c = true) ∧ pre = body ++ gap ∧
      findControls U (Scan.join ' ' ((if body = [] then [] else [body]) ++ cs.map controlStr)) = cs ∧
      ∃ post, (∀ d ∈ post, U.isSpace d = true) ∧
        cs.foldl (fun remaining m => Scan.replaceFirst (controlStr m) remaining)
          (Scan.join ' ' ((if body = [] then [] else [body]) ++ cs.map controlStr)) = pre ++ post := by
    by_cases hb : body = []
    · subst hb
      exact ⟨[], [], by simp, rfl, findControls_spelled [] hcs quiet_nil,
        replace_spelled [] hcs quiet_nil⟩
    · rw [if_neg hb]
      cases hcase : cs with
      | nil =>
        refine ⟨body, [], by simp, by simp, ?_, [], by simp, by simp [Scan.join]⟩
        have hnone : ∀ y, y ≠ [] → y <:+ body → controlAt U (y ++ []) = none := by
          rintro y - ⟨x, hx⟩
          refine not_not.mp (mt startsControl_iff.mpr fun hstart => hbody ⟨x, y, hx.symm, ?_⟩)
          rwa [List.append_nil] at hstart
        have := Scan.findAll_append hnone
        rwa [List.append_nil] at this
      | cons c cs' =>
        have hquiet := quiet_space U.space hbody
        rw [← hcase]
        have htext : Scan.join ' ' ([body] ++ cs.map controlStr) =
            (body ++ [' ']) ++ Scan.join ' ' (cs.map controlStr) := by
          rw [List.singleton_append, Scan.join_cons (by simp [hcase])]
          simp
        rw [htext]
        exact ⟨body ++ [' '], [' '], by simpa using U.space, rfl, findControls_spelled _ hcs hquiet,
          replace_spelled _ hcs hquiet⟩
  obtain ⟨pre, gap, hgap, rfl, hfound, post, hpost, hreplaced⟩ := hpre
  unfold extractControls
  rw [hfound, hreplaced, record_spelled [] hcs (by simpa using hnodup)]
  refine Prod.ext ?_ (List.nil_append cs)
  have := Scan.strip_pad [] body (gap ++ post) (by simp)
    (by
      intro c hc
      rcases List.mem_append.mp hc with hc | hc
      · exact hgap c hc
      · exact hpost c hc) hhead hlast
  simpa using this

end Spelled

end Query

end Mantle
