import Mantle.Base.Copies
import Mantle.Py.JsonRoundTrip
import Mantle.Access.Invalidate
import Mantle.Events.Subscription

/-!
# Mantle.Events.Acks — acknowledgements side by side (`advance_cursor`)

A cursor is stored as text inside the subscription's document, which a call reads and stores whole, so it may be older
than the one it replaces.
-/

namespace Mantle.Bus

open Run

variable {cs : List Char} {n : ℤ} {o : String}

/-! ### A cursor as text -/

/-- `str(cursor)`. -/
def markText (m : String × ℤ) : List Char := m.1.toList ++ ':' :: (toString m.2).toList

def Cursor.text (c : Cursor) : String := String.ofList ([','].intercalate (c.marks.map markText))

/-- `s.rpartition(":")`, of a text that has one. -/
def rpartition (cs : List Char) : Option (List Char × List Char) :=
  match cs.reverse.span (· ≠ ':') with
  | (back, _ :: front) => some (front.reverse, back.reverse)
  | (_, []) => none

/-- One fragment; one that cannot be read is dropped. -/
def parseMark (cs : List Char) : Option (String × ℤ) :=
  (rpartition cs).bind fun p => (parseInt (strip (String.ofList p.2))).map fun n =>
    (strip (String.ofList p.1), n)

def Cursor.parse (text : String) : Cursor :=
  .of (((text.toList.splitOn ',').filterMap parseMark).foldl (fun d m => d.insert m.1 m.2) ∅)

/-- An origin that a fragment can name. -/
def Nameable (o : String) : Prop := ',' ∉ o.toList ∧ strip o = o

def Cursor.Named (c : Cursor) : Prop := ∀ m ∈ c.marks, Nameable m.1

theorem rpartition_mark {front back : List Char} (h : ':' ∉ back) :
    rpartition (front ++ ':' :: back) = some (front, back) := by
  have hback : ∀ c ∈ back.reverse, decide (c ≠ ':') = true := by
    intro c hc
    have : c ≠ ':' := fun heq => h (heq ▸ List.mem_reverse.mp hc)
    simpa using this
  have hspan : (front ++ ':' :: back).reverse.span (· ≠ ':') = (back.reverse, ':' :: front.reverse) := by
    rw [List.span_eq_takeWhile_dropWhile, List.reverse_append, List.reverse_cons, List.append_assoc]
    rw [List.takeWhile_append_of_pos hback, List.dropWhile_append_of_pos hback]
    simp
  unfold rpartition
  rw [hspan]
  simp

theorem parseDigits_digits : ∀ {ds : List Char} {b : Bool} {acc : ℕ}, (∀ c ∈ ds, c.isDigit = true) →
    (b = true ∨ ds ≠ []) →
    Mantle.parseDigits ds b acc = some (ds.foldl (fun n c => n * 10 + (c.toNat - '0'.toNat)) acc)
  | [], b, acc, _, h => by
    have : b = true := h.resolve_right (by simp)
    simp [Mantle.parseDigits, this]
  | c :: cs, b, acc, hd, _ => by
    have hc := hd c (by simp)
    rw [Mantle.parseDigits, if_pos hc, List.foldl_cons]
    exact parseDigits_digits (fun c hc => hd c (by simp [hc])) (.inl rfl)

theorem parseDigits_nat (n : ℕ) : Mantle.parseDigits (Nat.toDigits 10 n) false 0 = some n := by
  rw [parseDigits_digits (Json.isDigit_toDigits n) (.inr Nat.toDigits_ne_nil)]
  exact congrArg some (Json.parseDigits_toDigits n)

theorem strip_eq_of_ends (hfirst : ∀ c ∈ cs.head?, isPySpace c = false)
    (hlast : ∀ c ∈ cs.getLast?, isPySpace c = false) : strip (String.ofList cs) = String.ofList cs := by
  have hdrop : ∀ {xs : List Char}, (∀ c ∈ xs.head?, isPySpace c = false) → xs.dropWhile isPySpace = xs := by
    intro xs hx
    cases xs with
    | nil => rfl
    | cons c xs => rw [List.dropWhile_cons_of_neg (by simp [hx c rfl])]
  unfold strip
  rw [String.toList_ofList, hdrop hfirst, hdrop (by rwa [List.head?_reverse]), List.reverse_reverse]

theorem strip_strip (s : String) : strip (strip s) = strip s := by
  have hhead : ∀ xs : List Char, ∀ c ∈ (xs.dropWhile isPySpace).head?, isPySpace c = false := by
    intro xs c hc
    have := List.head?_dropWhile_not isPySpace xs
    rw [Option.mem_def.mp hc] at this
    simpa using this
  refine strip_eq_of_ends ?_ ?_
  · intro c hc
    rw [List.head?_reverse] at hc
    -- the last of a suffix is the last of the whole, which is the first that stayed on the left
    obtain ⟨pre, hpre⟩ := List.dropWhile_suffix isPySpace (l := (s.toList.dropWhile isPySpace).reverse)
    refine hhead s.toList c ?_
    rw [← List.getLast?_reverse, ← hpre, List.getLast?_append, Option.mem_def.mp hc]
    rfl
  · intro c hc
    rw [List.getLast?_reverse] at hc
    exact hhead _ c hc

theorem digit_not_space {c : Char} (h : c.isDigit = true) : isPySpace c = false ∧ c.isWhitespace = false := by
  have hn : 48 ≤ c.toNat ∧ c.toNat ≤ 57 := by simpa [Char.isDigit_iff_toNat] using h
  constructor
  · simp only [isPySpace, Bool.or_eq_false_iff, Bool.and_eq_false_iff, decide_eq_false_iff_not]
    omega
  · have hne : ∀ d : Char, d.toNat < 48 → c ≠ d := by
      rintro d hd rfl
      omega
    simp [Char.isWhitespace, hne ' ' (by decide), hne '\t' (by decide), hne '\r' (by decide),
      hne '\n' (by decide)]

theorem toList_ofNat (m : ℕ) : (toString (Int.ofNat m)).toList = Nat.toDigits 10 m := Nat.toList_repr

theorem toList_negSucc (m : ℕ) : (toString (Int.negSucc m)).toList = '-' :: Nat.toDigits 10 (m + 1) := by
  change ("-" ++ Nat.repr (m + 1)).toList = _
  rw [String.toList_append, Nat.toList_repr]
  rfl

/-- A character that neither `strip` nor `int` drops. -/
def Visible (c : Char) : Prop := isPySpace c = false ∧ c.isWhitespace = false

theorem trim_visible {xs : List Char} (hx : ∀ c ∈ xs, Visible c) :
    (((strip (String.ofList xs)).toList.dropWhile Char.isWhitespace).reverse.dropWhile
      Char.isWhitespace).reverse = xs := by
  have hdrop : ∀ {ys : List Char}, (∀ c ∈ ys, Visible c) → ys.dropWhile Char.isWhitespace = ys := by
    intro ys hy
    cases ys with
    | nil => rfl
    | cons c ys => rw [List.dropWhile_cons_of_neg (by simp [(hy c (by simp)).2])]
  rw [strip_eq_of_ends (fun c hc => (hx c (List.mem_of_mem_head? hc)).1)
    (fun c hc => (hx c (List.mem_of_mem_getLast? hc)).1), String.toList_ofList, hdrop hx,
    hdrop fun c hc => hx c (List.mem_reverse.mp hc), List.reverse_reverse]

theorem parseInt_toString (n : ℤ) : parseInt (strip (toString n)) = some n := by
  cases n with
  | ofNat m =>
    have hvis : ∀ c ∈ Nat.toDigits 10 m, Visible c := fun c hc => digit_not_space (Json.isDigit_toDigits m c hc)
    rw [← @String.ofList_toList (toString (Int.ofNat m)), toList_ofNat]
    unfold parseInt
    rw [trim_visible hvis]
    have hdigits := Json.isDigit_toDigits m
    have hparse := parseDigits_nat m
    split
    · rename_i cs heq
      exact absurd (hdigits '-' (by rw [heq]; simp)) (by decide)
    · rename_i cs heq
      exact absurd (hdigits '+' (by rw [heq]; simp)) (by decide)
    · rw [hparse]
      rfl
  | negSucc m =>
    have hvis : ∀ c ∈ '-' :: Nat.toDigits 10 (m + 1), Visible c := by
      intro c hc
      rcases List.mem_cons.mp hc with rfl | hc
      · exact ⟨by decide, by decide⟩
      · exact digit_not_space (Json.isDigit_toDigits _ c hc)
    rw [← @String.ofList_toList (toString (Int.negSucc m)), toList_negSucc]
    unfold parseInt
    rw [trim_visible hvis]
    simp only [parseDigits_nat]
    rfl

theorem toString_no_mark (n : ℤ) : ':' ∉ (toString n).toList ∧ ',' ∉ (toString n).toList := by
  have hno : ∀ c : Char, c.isDigit = false → c ≠ '-' → c ∉ (toString n).toList := by
    intro c hc hne hmem
    cases n with
    | ofNat m =>
      rw [toList_ofNat] at hmem
      rw [Json.isDigit_toDigits m c hmem] at hc
      cases hc
    | negSucc m =>
      rw [toList_negSucc, List.mem_cons] at hmem
      have := Json.isDigit_toDigits (m + 1) c (hmem.resolve_left hne)
      rw [this] at hc
      cases hc
  exact ⟨hno ':' (by decide) (by decide), hno ',' (by decide) (by decide)⟩

theorem parseMark_markText {m : String × ℤ} (h : Nameable m.1) : parseMark (markText m) = some m := by
  unfold parseMark markText
  rw [rpartition_mark (toString_no_mark m.2).1]
  simp only [Option.bind_some, String.ofList_toList, parseInt_toString, Option.map_some, h.2]

theorem lookup_parse_text {c : Cursor} (h : c.Named) (o : String) :
    (Cursor.parse c.text).toDict.lookup o = c.toDict.lookup o := by
  have hparts : (c.text.toList.splitOn ',').filterMap parseMark = c.marks := by
    unfold Cursor.text
    rw [String.toList_ofList]
    cases hm : c.marks with
    | nil => rfl
    | cons m ms =>
      rw [List.splitOn_intercalate, ← hm, List.filterMap_map]
      · have : ∀ m ∈ c.marks, (parseMark ∘ markText) m = some m := fun m hm => parseMark_markText (h m hm)
        rw [List.filterMap_congr this, List.filterMap_some]
      · intro l hl
        obtain ⟨m', hm', rfl⟩ := List.mem_map.mp (hm ▸ hl)
        unfold markText
        simp only [List.mem_append, List.mem_cons, not_or]
        exact ⟨(h m' (hm ▸ hm')).1, by decide, (toString_no_mark m'.2).2⟩
      · simp
  unfold Cursor.parse
  rw [hparts, lookup_of]
  rfl

theorem nameable_strip (h : ',' ∉ cs) : Nameable (strip (String.ofList cs)) := by
  refine ⟨fun hmem => h ?_, strip_strip _⟩
  unfold strip at hmem
  simp only [String.toList_ofList, List.mem_reverse] at hmem
  have := List.dropWhile_suffix isPySpace |>.subset hmem
  rw [List.mem_reverse] at this
  exact List.dropWhile_suffix isPySpace |>.subset this

theorem not_mem_splitOn {x : Char} : ∀ {cs : List Char}, ∀ part ∈ cs.splitOn x, x ∉ part
  | [], part, h => by
    rw [List.splitOn_nil, List.mem_singleton] at h
    simp [h]
  | c :: cs, part, h => by
    rw [List.splitOn_cons_eq_if_modifyHead] at h
    by_cases hc : (c == x) = true
    · rw [if_pos hc, List.mem_cons] at h
      rcases h with rfl | h
      · simp
      · exact not_mem_splitOn part h
    · rw [if_neg hc] at h
      cases hs : cs.splitOn x with
      | nil =>
        rw [hs] at h
        cases h
      | cons p ps =>
        rw [hs, List.modifyHead_cons, List.mem_cons] at h
        rcases h with rfl | h
        · have hp := @not_mem_splitOn x cs p (by rw [hs]; simp)
          rw [List.mem_cons, not_or]
          exact ⟨fun heq => hc (by simp [heq]), hp⟩
        · exact @not_mem_splitOn x cs part (by rw [hs]; simp [h])

theorem parseMark_nameable {m : String × ℤ} (hc : ',' ∉ cs) (h : parseMark cs = some m) :
    Nameable m.1 := by
  obtain ⟨⟨front, back⟩, hp, hm⟩ := Option.bind_eq_some_iff.mp h
  obtain ⟨n, -, rfl⟩ := Option.map_eq_some_iff.mp hm
  refine nameable_strip fun hf => hc ?_
  unfold rpartition at hp
  split at hp
  · rename_i b x f hspan
    simp only [Option.some.injEq, Prod.mk.injEq] at hp
    rw [← hp.1, List.mem_reverse] at hf
    rw [List.span_eq_takeWhile_dropWhile, Prod.mk.injEq] at hspan
    have hmem : ',' ∈ cs.reverse.dropWhile (· ≠ ':') := by
      rw [hspan.2]
      exact List.mem_cons_of_mem _ hf
    exact List.mem_reverse.mp (List.dropWhile_suffix _ |>.subset hmem)
  · cases hp

/-! ### Marks -/

/-- The position of an origin; an origin without a mark stands at nothing read. -/
def Cursor.markOf (c : Cursor) (o : String) : ℤ := (c.toDict.lookup o).getD 0

/-- The loop of `advance_cursor`. -/
def Cursor.merged (c given : Cursor) : Cursor := given.marks.foldl (fun c m => c.advanced m.1 m.2) c

/-- A cursor reaches a number on an origin through one of its own marks. -/
def Cursor.Gives (given : Cursor) (o : String) (n : ℤ) : Prop := ∃ m ∈ given.marks, m.1 = o ∧ n ≤ m.2

theorem markOf_advanced (c : Cursor) (origin : String) (seq : ℤ) (o : String) :
    (c.advanced origin seq).markOf o = if o = origin then max seq (c.markOf o) else c.markOf o := by
  unfold Cursor.markOf Cursor.advanced
  rw [lookup_of, Table.lookup_insert_of]
  by_cases ho : o = origin
  · subst ho
    simp
  · simp [ho]

theorem le_markOf_foldl : ∀ (marks : List (String × ℤ)) (c : Cursor),
    n ≤ (marks.foldl (fun c m => c.advanced m.1 m.2) c).markOf o ↔
      n ≤ c.markOf o ∨ ∃ m ∈ marks, m.1 = o ∧ n ≤ m.2
  | [], c => by simp
  | m :: marks, c => by
    rw [List.foldl_cons, le_markOf_foldl marks, markOf_advanced]
    by_cases ho : o = m.1
    · subst ho
      simp only [if_true, le_max_iff, List.mem_cons, exists_eq_or_imp, true_and]
      tauto
    · simp only [if_neg ho, List.mem_cons, exists_eq_or_imp, Ne.symm ho, false_and, false_or]

theorem le_markOf_merged {c given : Cursor} :
    n ≤ (c.merged given).markOf o ↔ n ≤ c.markOf o ∨ given.Gives o n := le_markOf_foldl _ _

theorem mem_of_lookup_foldl {k : String} {v : ℤ} : ∀ (marks : List (String × ℤ)) (d : Table String ℤ),
    (marks.foldl (fun d m => d.insert m.1 m.2) d).lookup k = some v → (k, v) ∈ marks ∨ d.lookup k = some v
  | [], _, h => .inr h
  | m :: marks, d, h => by
    rcases mem_of_lookup_foldl marks _ h with h | h
    · exact .inl (List.mem_cons_of_mem _ h)
    · rw [Table.lookup_insert_of] at h
      by_cases hk : k = m.1
      · rw [if_pos hk] at h
        refine .inl (List.mem_cons.mpr (.inl ?_))
        rw [hk, ← Option.some.inj h]
      · rw [if_neg hk] at h
        exact .inr h

theorem named_of {d : Table String ℤ} (h : ∀ o n, d.lookup o = some n → Nameable o) : (Cursor.of d).Named := by
  rintro ⟨o, n⟩ hm
  have hperm := List.perm_insertionSort (fun a b : String × ℤ => a.1 ≤ b.1) d.toPairs
  exact h o n (Table.mem_toPairs.mp (hperm.mem_iff.mp hm))

theorem Cursor.Named.lookup {c : Cursor} (h : c.Named) (hl : c.toDict.lookup o = some n) :
    Nameable o := by
  rcases mem_of_lookup_foldl c.marks ∅ hl with hm | hl
  · exact h _ hm
  · cases hl

theorem named_parse (text : String) : (Cursor.parse text).Named := by
  refine named_of fun o n hl => ?_
  rcases mem_of_lookup_foldl _ _ hl with hm | hl
  · obtain ⟨cs, hcs, hp⟩ := List.mem_filterMap.mp hm
    exact parseMark_nameable (not_mem_splitOn cs hcs) hp
  · cases hl

theorem Cursor.Named.advanced {c : Cursor} (h : c.Named) {origin : String} (ho : Nameable origin) (seq : ℤ) :
    (c.advanced origin seq).Named := by
  refine named_of fun o n hl => ?_
  rw [Table.lookup_insert_of] at hl
  by_cases hk : o = origin
  · exact hk ▸ ho
  · rw [if_neg hk] at hl
    exact h.lookup hl

theorem Cursor.Named.foldl : ∀ (marks : List (String × ℤ)) {c : Cursor}, c.Named →
    (∀ m ∈ marks, Nameable m.1) → (marks.foldl (fun c m => c.advanced m.1 m.2) c).Named
  | [], _, h, _ => h
  | m :: marks, c, h, hm => by
    have hm' : ∀ m' ∈ marks, Nameable m'.1 := fun m' hm' => hm m' (List.mem_cons_of_mem _ hm')
    exact Cursor.Named.foldl marks (h.advanced (hm m List.mem_cons_self) m.2) hm'

/-! ### Calls side by side -/

/-- What a call is given: the marks of a text, or of a cursor whose origins a text can name. -/
abbrev Given := { c : Cursor // c.Named }

def Given.ofText (text : String) : Given := ⟨Cursor.parse text, named_parse text⟩

/-- `advance_cursor`: the load parses the stored text; the save writes the text of the merged cursor over
whatever is stored by then. -/
def ackRules : CopyRules String Cursor Given where
  read _ text := some (Cursor.parse text)
  write given c _ := some (c.merged given).text

def storedMark (text : String) (o : String) : ℤ := (Cursor.parse text).markOf o

theorem markOf_parse_text {c : Cursor} (h : c.Named) (o : String) : storedMark c.text o = c.markOf o := by
  unfold storedMark Cursor.markOf
  rw [lookup_parse_text h]

def NeverBack (s : Copies String Cursor Given) (e : CopyEvent Given) : Prop :=
  ∀ o, storedMark s.shared o ≤ storedMark (s.step ackRules e).shared o

/-- The stored marks are those of the copy joined with what was given since it was read. -/
def SinceLoad (text : String) (_ : List (CopyWrite Cursor Given)) (h : CopyHeld Cursor Given) : Prop :=
  h.copy.Named ∧ ∀ o n, n ≤ storedMark text o ↔ n ≤ h.copy.markOf o ∨ ∃ w ∈ h.since, w.op.val.Gives o n

def Reached (s : Copies String Cursor Given) : Prop :=
  ∀ w ∈ s.written, ∀ m ∈ w.op.val.marks, m.2 ≤ storedMark s.shared m.1

structure AcksSound (s : Copies String Cursor Given) : Prop where
  since : s.Holds SinceLoad
  reached : Reached s

theorem le_saved {h : CopyHeld Cursor Given} (hc : h.copy.Named) :
    n ≤ storedMark (h.copy.merged h.op.val).text o ↔ n ≤ h.copy.markOf o ∨ h.op.val.Gives o n := by
  have hnamed : (h.copy.merged h.op.val).Named := hc.foldl _ h.op.property
  rw [markOf_parse_text hnamed, le_markOf_merged]

theorem AcksSound.step {s : Copies String Cursor Given} (hs : AcksSound s) {e : CopyEvent Given}
    (hback : NeverBack s e) : AcksSound (s.step ackRules e) where
  since := by
    refine Copies.Holds.step hs.since ?_ ?_
    · intro op c hr
      cases hr
      exact ⟨named_parse _, fun o n => by simp [storedMark]⟩
    · -- the writer's copy was already joined into what is stored
      intro h v h₀ hw ⟨hc, hsince⟩ ⟨hc₀, hsince₀⟩
      refine ⟨hc₀, fun o n => ?_⟩
      have hstep := (Copies.step_shared_of_writes hw).1
      obtain ⟨i, -, -, hv⟩ := id hw
      have hv' : v = (h.copy.merged h.op.val).text := (Option.some.inj hv).symm
      have hle : storedMark s.shared o ≤ storedMark v o := hstep ▸ hback o
      have hsaved : n ≤ storedMark v o ↔ n ≤ storedMark s.shared o ∨ h.op.val.Gives o n := by
        constructor
        · intro hn
          rw [hv', le_saved hc] at hn
          exact hn.imp_left fun hn => (hsince o n).mpr (.inl hn)
        · rintro (hn | hn)
          · exact hn.trans hle
          · rw [hv', le_saved hc]
            exact .inr hn
      rw [hsaved, hsince₀ o n]
      simp only [CopyHeld.passed, List.mem_cons, exists_eq_or_imp]
      exact or_assoc.trans (or_congr_right or_comm)
  reached := by
    rcases Copies.step_cases ackRules s e with ⟨h, v, hw⟩ | ⟨hshared, hwritten, -⟩
    · intro g hg m hm
      obtain ⟨hshared, hwritten⟩ := Copies.step_shared_of_writes hw
      obtain ⟨i, -, hi, hv⟩ := id hw
      have hv' : v = (h.copy.merged h.op.val).text := (Option.some.inj hv).symm
      rw [hwritten, List.mem_cons] at hg
      rcases hg with rfl | hg
      · have hgives : h.op.val.Gives m.1 m.2 := ⟨m, hm, rfl, le_refl _⟩
        have hle := (le_saved (hs.since i h hi).1).mpr (.inr hgives)
        rw [hshared, hv']
        exact hle
      · exact (hs.reached g hg m hm).trans (hback m.1)
    · intro g hg
      rw [hshared]
      exact hs.reached g (hwritten ▸ hg)

theorem AcksSound.start (text : String) : AcksSound (.start text) :=
  ⟨Copies.holds_start text, fun _ hg => nomatch hg⟩

/-- Two calls load the same text; the one given less saves last. -/
def racing : List (CopyEvent Given) :=
  [.read 0 (.ofText "here:9"), .read 1 (.ofText "here:4"), .write 0, .write 1]

end Mantle.Bus
