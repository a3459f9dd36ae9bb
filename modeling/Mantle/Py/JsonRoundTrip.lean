import Mathlib.Data.List.Nodup
import Mathlib.Data.List.TakeDrop
import Mathlib.Tactic.IntervalCases
import Mathlib.Tactic.NormNum
import Mantle.Py.JsonLoads

/-!
# Mantle.Py.JsonRoundTrip — reading back what was written

The reader makes `Val.norm v` of the text the writer made of `v`.  How a float reads back is the language's
(`float(repr(x)) == x`) and enters as `Readable`.
-/

namespace Mantle.Json

variable {c : Char} {fuel : ℕ} {rest : List Char} {t : String} {v : Val}

/-! ### Texts -/

theorem hexVal_hexDigit {d : ℕ} (h : d < 16) : hexVal (hexDigit d) = some d := by
  interval_cases d <;> decide

theorem hex4_hexDigits {n : ℕ} (h : n < 65536) (rest : List Char) :
    hex4 (hexDigits 4 n ++ rest) = some (n, rest) := by
  have hd : hexDigits 4 n = [hexDigit (n / 16 / 16 / 16 % 16), hexDigit (n / 16 / 16 % 16),
      hexDigit (n / 16 % 16), hexDigit (n % 16)] := rfl
  have hlt : ∀ m : ℕ, m % 16 < 16 := fun m => Nat.mod_lt m (by omega)
  rw [hd]
  simp only [List.cons_append, List.nil_append, hex4, hexVal_hexDigit (hlt _)]
  congr 2
  omega

theorem toNat_not_surrogate (c : Char) : ¬(0xD800 ≤ c.toNat ∧ c.toNat < 0xE000) := by
  have h := c.valid
  unfold UInt32.isValidChar Nat.isValidChar at h
  change c.toNat < 0xD800 ∨ 0xDFFF < c.toNat ∧ c.toNat < 0x110000 at h
  omega

theorem toNat_lt (c : Char) : c.toNat < 0x110000 := by
  have h := c.valid
  unfold UInt32.isValidChar Nat.isValidChar at h
  change c.toNat < 0xD800 ∨ 0xDFFF < c.toNat ∧ c.toNat < 0x110000 at h
  omega

theorem escapedUnit_bmp (h : c.toNat < 65536) (rest : List Char) :
    escapedUnit (hexDigits 4 c.toNat ++ rest) = some (c, rest) := by
  have hs := toNat_not_surrogate c
  have hlead : ¬(0xD800 ≤ c.toNat ∧ c.toNat < 0xDC00) := by omega
  unfold escapedUnit
  rw [hex4_hexDigits h]
  simp only [hlead, if_false, unitChar, hs, Char.ofNat_toNat]

theorem escapedUnit_surrogates {hi lo : ℕ} (hhi : 0xD800 ≤ hi ∧ hi < 0xDC00)
    (hlo : 0xDC00 ≤ lo ∧ lo < 0xE000) (rest : List Char) :
    escapedUnit (hexDigits 4 hi ++ (jsonEscape lo ++ rest)) =
      some (Char.ofNat (0x10000 + (hi - 0xD800) * 1024 + (lo - 0xDC00)), rest) := by
  unfold escapedUnit
  rw [hex4_hexDigits (by omega)]
  simp only [hhi, and_self, if_true, jsonEscape, List.cons_append, List.nil_append]
  rw [hex4_hexDigits (by omega)]
  simp only [hlo, and_self, if_true]

theorem escapedUnit_pair (h : 65536 ≤ c.toNat) (rest : List Char) :
    escapedUnit (hexDigits 4 (55296 + (c.toNat - 65536) / 1024) ++
      (jsonEscape (56320 + (c.toNat - 65536) % 1024) ++ rest)) = some (c, rest) := by
  have hc := toNat_lt c
  have hsum : ∀ n, 65536 ≤ n → 65536 + (55296 + (n - 65536) / 1024 - 55296) * 1024 +
      (56320 + (n - 65536) % 1024 - 56320) = n := by
    intro n hn
    omega
  rw [escapedUnit_surrogates (by omega) (by omega), hsum c.toNat h, Char.ofNat_toNat]

theorem text_jsonChar (fuel : ℕ) (acc : List Char) (c : Char) (rest : List Char) :
    text (fuel + 1) acc (jsonChar c ++ rest) = text fuel (c :: acc) rest := by
  unfold jsonChar
  split_ifs with h1 h2 h3 h4 h5 h6 h7 h8
  · rcases h1 with rfl | rfl <;> rfl
  · rw [h2]
    rfl
  · rw [h3]
    rfl
  · rw [h4]
    rfl
  · rw [show c = Char.ofNat 8 by rw [← h5, Char.ofNat_toNat]]
    rfl
  · rw [show c = Char.ofNat 12 by rw [← h6, Char.ofNat_toNat]]
    rfl
  · rw [not_or] at h1
    have hctl : ¬(c.toNat < 32 ∨ c = '\\') := by
      rintro (h | h)
      · omega
      · exact h1.2 h
    rw [List.singleton_append, text]
    · simp only [hctl, if_false]
    · exact fun h => h1.1 h
    · rintro _ h -
      exact h1.2 h
    · rintro _ _ h -
      exact h1.2 h
  · simp only [jsonEscape, List.cons_append, List.nil_append]
    rw [text, escapedUnit_bmp h8]
  · rw [List.append_assoc]
    conv_lhs => rw [jsonEscape]
    simp only [List.cons_append, List.nil_append]
    rw [text, escapedUnit_pair (by omega)]

theorem text_flatMap : ∀ (cs : List Char) (fuel : ℕ) (acc rest : List Char), cs.length < fuel →
    text fuel acc (cs.flatMap jsonChar ++ '"' :: rest) =
      some (String.ofList (acc.reverse ++ cs), rest)
  | [], 0, _, _, h => by omega
  | [], fuel + 1, acc, rest, _ => by simp [text]
  | _ :: _, 0, _, _, h => by simp at h
  | c :: cs, fuel + 1, acc, rest, h => by
    rw [List.flatMap_cons, List.append_assoc, text_jsonChar, text_flatMap cs fuel (c :: acc) rest]
    · simp
    · simpa using h

theorem jsonChar_length (c : Char) : 1 ≤ (jsonChar c).length := by
  unfold jsonChar
  split_ifs <;> simp [jsonEscape]

theorem length_le_flatMap : ∀ cs : List Char, cs.length ≤ (cs.flatMap jsonChar).length
  | [] => le_refl _
  | c :: cs => by
    have h1 := jsonChar_length c
    have h2 := length_le_flatMap cs
    simp only [List.flatMap_cons, List.length_append, List.length_cons]
    omega

/-- **Texts.**  The reader takes a written text, from its opening quote on. -/
theorem text_jsonString (s : String) (rest : List Char) :
    (jsonString s).toList = '"' :: (s.toList.flatMap jsonChar ++ ['"']) ∧
      text ((s.toList.flatMap jsonChar ++ '"' :: rest).length + 1) []
        (s.toList.flatMap jsonChar ++ '"' :: rest) = some (s, rest) := by
  constructor
  · simp [jsonString]
  · rw [text_flatMap]
    · simp
    · have := length_le_flatMap s.toList
      simp only [List.length_append, List.length_cons]
      omega

/-! ### Numbers -/

/-- What may follow a value inside a written text. -/
inductive Follow : List Char → Prop
  | done : Follow []
  | comma (rest : List Char) : Follow (',' :: rest)
  | bracket (rest : List Char) : Follow (']' :: rest)
  | brace (rest : List Char) : Follow ('\x7d' :: rest)

theorem digits_append {ds : List Char} (hd : ∀ c ∈ ds, c.isDigit = true) (hr : Follow rest) :
    digits (ds ++ rest) = (ds, rest) := by
  have hnone : rest.takeWhile Char.isDigit = [] ∧ rest.dropWhile Char.isDigit = rest := by
    cases hr <;> exact ⟨rfl, rfl⟩
  unfold digits
  rw [List.span_eq_takeWhile_dropWhile, List.takeWhile_append_of_pos hd,
    List.dropWhile_append_of_pos hd, hnone.1, hnone.2, List.append_nil]

theorem fracPart_follow (hr : Follow rest) : fracPart rest = ([], rest) := by
  cases hr <;> rfl

theorem expPart_follow (hr : Follow rest) : expPart rest = ([], rest) := by
  cases hr <;> rfl

theorem head_toDigits {n : ℕ} (hn : 0 < n) {ds : List Char} : Nat.toDigits 10 n ≠ '0' :: ds := by
  induction n using Nat.strong_induction_on generalizing ds with
  | _ n ih =>
    intro h
    rcases Nat.lt_or_ge n 10 with hlt | hge
    · rw [Nat.toDigits_of_lt_base hlt] at h
      have hd : n.digitChar = '0' := (List.cons.inj h).1
      interval_cases n <;> revert hd <;> decide
    · rw [Nat.toDigits_of_base_le (by omega) hge] at h
      cases ht : Nat.toDigits 10 (n / 10) with
      | nil => exact Nat.toDigits_ne_nil ht
      | cons d ds' =>
        rw [ht, List.cons_append, List.cons.injEq] at h
        rw [h.1] at ht
        exact ih (n / 10) (by omega) (by omega) ht

theorem isDigit_toDigits (n : ℕ) : ∀ c ∈ Nat.toDigits 10 n, c.isDigit = true := fun _ hc =>
  Nat.isDigit_of_mem_toDigits (by omega) (by omega) hc

theorem intPart_toDigits (n : ℕ) (hr : Follow rest) :
    intPart (Nat.toDigits 10 n ++ rest) = some (Nat.toDigits 10 n, rest) := by
  unfold intPart
  rw [digits_append (isDigit_toDigits n) hr]
  rcases Nat.eq_zero_or_pos n with rfl | hn
  · simp [Nat.toDigits_zero]
  · split
    · rename_i h
      exact absurd (Prod.mk.inj h).1 Nat.toDigits_ne_nil
    · rename_i h
      exact absurd (Prod.mk.inj h).1 (head_toDigits hn)
    · rename_i h
      rw [(Prod.mk.inj h).1, (Prod.mk.inj h).2]

theorem parseDigits_toDigits (n : ℕ) : number.parseDigits (Nat.toDigits 10 n) = n := by
  have h := @Nat.ofDigitChars_toDigits 10 n (by omega) (by omega)
  rw [Nat.ofDigitChars_eq_foldl] at h
  unfold number.parseDigits
  simpa only [Nat.mul_comm] using h

section Reader

variable (float : String → Flt)

theorem literal_digit (hc : c.isDigit = true) (rest : List Char) :
    literal float (c :: rest) = none ∧ literal float ('-' :: c :: rest) = none := by
  have hne : c ≠ 'n' ∧ c ≠ 't' ∧ c ≠ 'f' ∧ c ≠ 'N' ∧ c ≠ 'I' ∧ c ≠ '-' := by
    refine ⟨?_, ?_, ?_, ?_, ?_, ?_⟩ <;> (rintro rfl; revert hc; decide)
  obtain ⟨h1, h2, h3, h4, h5, h6⟩ := hne
  constructor <;>
    simp [literal, literals, Ne.symm h1, Ne.symm h2, Ne.symm h3, Ne.symm h4,
      Ne.symm h5, Ne.symm h6]

theorem value_digit (fuel : ℕ) (hc : c.isDigit = true) (rest : List Char) :
    value float (fuel + 1) (c :: rest) = number float (c :: rest) ∧
      value float (fuel + 1) ('-' :: c :: rest) = number float ('-' :: c :: rest) := by
  obtain ⟨h1, h2⟩ := literal_digit float hc rest
  constructor
  · rw [value, h1]
    · rfl
    all_goals
      intro _ h
      rw [(List.cons.inj h).1] at hc
      revert hc
      decide
  · rw [value, h2]
    · rfl
    all_goals simp

theorem value_nat (fuel n : ℕ) (hr : Follow rest) :
    value float (fuel + 1) (Nat.toDigits 10 n ++ rest) = some (.int n, rest) ∧
      value float (fuel + 1) ('-' :: (Nat.toDigits 10 n ++ rest)) = some (.int (-n), rest) := by
  obtain ⟨c, ds, hds⟩ := List.exists_cons_of_ne_nil (@Nat.toDigits_ne_nil n 10)
  have hc : c.isDigit = true := isDigit_toDigits n c (by rw [hds]; simp)
  have hminus : c ≠ '-' := by
    rintro rfl
    revert hc
    decide
  obtain ⟨h1, h2⟩ := value_digit float fuel hc (ds ++ rest)
  rw [← List.cons_append, ← hds] at h1 h2
  have hint := intPart_toDigits n hr
  constructor
  · rw [h1, number]
    · simp only [hint, fracPart_follow hr, expPart_follow hr, List.isEmpty_nil, and_self, if_true,
        parseDigits_toDigits]
    · intro r h
      rw [hds, List.cons_append] at h
      exact hminus (List.cons.inj h).1
  · rw [h2, number]
    simp only [hint, fracPart_follow hr, expPart_follow hr, List.isEmpty_nil, and_self, if_true,
      List.isEmpty_cons, Bool.false_eq_true, if_false, parseDigits_toDigits]

theorem value_int (fuel : ℕ) (n : ℤ) (hr : Follow rest) :
    value float (fuel + 1) ((toString n).toList ++ rest) = some (.int n, rest) := by
  cases n with
  | ofNat m =>
    have h : (toString (Int.ofNat m)).toList = Nat.toDigits 10 m := Nat.toList_repr
    rw [h]
    exact (value_nat float fuel m hr).1
  | negSucc m =>
    have h : (toString (Int.negSucc m)).toList = '-' :: Nat.toDigits 10 (m + 1) := by
      change ("-" ++ Nat.repr (m + 1)).toList = _
      rw [String.toList_append, Nat.toList_repr]
      rfl
    rw [h, List.cons_append, (value_nat float fuel (m + 1) hr).2]
    rfl

/-! ### Values -/

structure ReadsFloat (f : Flt) : Prop where
  head : ∃ c cs, f.repr.toList = c :: cs ∧ isWs c = false ∧ c ≠ ']' ∧ c.toNat < 128
  value : ∀ (fuel : ℕ) (rest : List Char), Follow rest →
    value float (fuel + 1) (f.repr.toList ++ rest) = some (.float f, rest)

mutual

def Readable : Val → Prop
  | .float f => ReadsFloat float f
  | .list xs => ReadableList xs
  | .tuple xs => ReadableList xs
  | .dict items => ReadableItems items
  | _ => True

def ReadableList : List Val → Prop
  | [] => True
  | v :: vs => Readable v ∧ ReadableList vs

def ReadableItems : List (Key × Val) → Prop
  | [] => True
  | (_, v) :: rest => Readable v ∧ ReadableItems rest

end

variable {float}

theorem skipWs_of_head {cs : List Char} (h : isWs c = false) :
    skipWs (c :: cs) = c :: cs := by
  simp [skipWs, h]

theorem skipWs_space (cs : List Char) : skipWs (' ' :: cs) = skipWs cs := rfl

/-- Written items, with their separator. -/
def joined (ys : List (List Char)) : List Char := [',', ' '].intercalate ys

@[simp] theorem joined_nil : joined [] = [] := rfl

@[simp] theorem joined_one (y : List Char) : joined [y] = y := List.intercalate_singleton

@[simp] theorem joined_cons (y z : List Char) (ys : List (List Char)) :
    joined (y :: z :: ys) = y ++ ',' :: ' ' :: joined (z :: ys) := by
  simp [joined, List.intercalate_cons_cons]

theorem dumps_array {xs : List Val}
    (h : (Val.dumpsList .plain xs).map
    (fun ys => "[" ++ JsonStyle.plain.item.intercalate ys ++ "]") = .ok t) :
    ∃ ys, Val.dumpsList .plain xs = .ok ys ∧
      t.toList = '[' :: (joined (ys.map String.toList) ++ [']']) := by
  cases hl : Val.dumpsList .plain xs with
  | error e =>
    rw [hl] at h
    cases h
  | ok ys =>
    rw [hl] at h
    cases h
    refine ⟨ys, rfl, ?_⟩
    rw [String.toList_append, String.toList_append, String.toList_intercalate]
    rfl

def memberChars (e : Key × String) : List Char :=
  (jsonString e.1.json).toList ++ ':' :: ' ' :: e.2.toList

theorem memberChars_length (k : Key) (t : String) : (memberChars (k, t)).length =
    (jsonString k.json).toList.length + (t.toList.length + 2) := by
  simp [memberChars]

theorem dumps_object {items : List (Key × Val)} (h : (Val.dict items).dumps .plain = .ok t) :
    ∃ es, Val.dumpsItems .plain items = .ok es ∧
      t.toList = '\x7b' :: (joined (es.map memberChars) ++ ['\x7d']) := by
  simp only [Val.dumps] at h
  cases hl : Val.dumpsItems .plain items with
  | error e =>
    rw [hl] at h
    cases h
  | ok es =>
    rw [hl] at h
    cases h
    refine ⟨es, rfl, ?_⟩
    have hmember : ∀ e : Key × String,
        (jsonString e.1.json ++ JsonStyle.plain.colon ++ e.2).toList = memberChars e := by
      intro e
      simp [memberChars, JsonStyle.plain]
    rw [jsonObject, String.toList_append, String.toList_append, String.toList_intercalate, List.map_map]
    simp only [Function.comp_def, hmember]
    rfl

theorem head_dumps (h : v.dumps .plain = .ok t) (hv : Readable float v) :
    ∃ c cs, t.toList = c :: cs ∧ isWs c = false ∧ c ≠ ']' ∧ c.toNat < 128 := by
  cases v with
  | none =>
    cases h
    exact ⟨'n', _, rfl, rfl, by decide, by decide⟩
  | bool b =>
    cases h
    cases b
    · exact ⟨'f', _, rfl, rfl, by decide, by decide⟩
    · exact ⟨'t', _, rfl, rfl, by decide, by decide⟩
  | int n =>
    cases h
    have hdigit : ∀ m : ℕ, ∃ c cs, Nat.toDigits 10 m = c :: cs ∧ isWs c = false ∧ c ≠ ']' ∧ c.toNat < 128 := by
      intro m
      obtain ⟨c, cs, hcs⟩ := List.exists_cons_of_ne_nil (@Nat.toDigits_ne_nil m 10)
      have hc : c.isDigit = true := isDigit_toDigits m c (by rw [hcs]; simp)
      refine ⟨c, cs, hcs, ?_, ?_, ?_⟩
      · by_contra hws
        simp only [isWs, Bool.not_eq_false, Bool.or_eq_true, decide_eq_true_eq] at hws
        rcases hws with ((rfl | rfl) | rfl) | rfl <;> revert hc <;> decide
      · rintro rfl
        revert hc
        decide
      · simp only [Char.isDigit, ge_iff_le, Bool.and_eq_true, decide_eq_true_eq] at hc
        have h9 : c.toNat ≤ 57 := hc.2
        omega
    cases n with
    | ofNat m =>
      have h : (toString (Int.ofNat m)).toList = Nat.toDigits 10 m := Nat.toList_repr
      rw [h]
      exact hdigit m
    | negSucc m => exact ⟨'-', _, by
        change ("-" ++ Nat.repr (m + 1)).toList = _
        rw [String.toList_append]
        rfl, rfl, by decide, by decide⟩
  | float f =>
    cases h
    exact hv.head
  | str s =>
    cases h
    exact ⟨'"', _, (text_jsonString s []).1, rfl, by decide, by decide⟩
  | bytes b => cases h
  | list xs =>
    obtain ⟨ys, -, ht⟩ := dumps_array h
    exact ⟨'[', _, ht, rfl, by decide, by decide⟩
  | tuple xs =>
    obtain ⟨ys, -, ht⟩ := dumps_array h
    exact ⟨'[', _, ht, rfl, by decide, by decide⟩
  | dict items =>
    obtain ⟨es, -, ht⟩ := dumps_object h
    exact ⟨'\x7b', _, ht, rfl, by decide, by decide⟩

theorem bind_ok {α β ε : Type} {x : Except ε α} {f : α → Except ε β} {b : β} (h : x.bind f = .ok b) :
    ∃ a, x = .ok a ∧ f a = .ok b := by
  cases x with
  | error e => cases h
  | ok a => exact ⟨a, rfl, h⟩

theorem map_ok {α β ε : Type} {x : Except ε α} {f : α → β} {b : β} (h : x.map f = .ok b) :
    ∃ a, x = .ok a ∧ f a = b := by
  cases x with
  | error e => cases h
  | ok a => exact ⟨a, rfl, by cases h; rfl⟩

theorem skipWs_dumps (h : v.dumps .plain = .ok t) (hv : Readable float v) (rest : List Char) :
    skipWs (t.toList ++ rest) = t.toList ++ rest := by
  obtain ⟨c, cs, hc, hws, -⟩ := head_dumps h hv
  rw [hc, List.cons_append, skipWs_of_head hws]

theorem members_member {acc : List (Key × Val)} {k : Key} {w : Val} (ht : v.dumps .plain = .ok t)
    (hv : Readable float v) (hval : value float fuel (t.toList ++ rest) = some (w, rest)) :
    members float (fuel + 1) acc (memberChars (k, t) ++ rest) =
      match skipWs rest with
      | '\x7d' :: r => some (setItem acc (.str k.json) w, r)
      | ',' :: r => members float fuel (setItem acc (.str k.json) w) (skipWs r)
      | _ => none := by
  obtain ⟨h1, h2⟩ := text_jsonString k.json (':' :: ' ' :: (t.toList ++ rest))
  have hkey : memberChars (k, t) ++ rest = '"' :: (k.json.toList.flatMap jsonChar ++
      '"' :: ':' :: ' ' :: (t.toList ++ rest)) := by
    unfold memberChars
    rw [h1]
    simp
  have hcolon : skipWs (':' :: ' ' :: (t.toList ++ rest)) = ':' :: ' ' :: (t.toList ++ rest) := rfl
  have hspace : skipWs (' ' :: (t.toList ++ rest)) = t.toList ++ rest := by
    rw [skipWs_space, skipWs_dumps ht hv rest]
  rw [hkey, members]
  -- the two matches are one and the same where a matcher is shared
  simp only [h2, hcolon, hspace, hval]
  all_goals rfl

/-- What a written object reads as: its members are set one after the other. -/
def setAll (acc items : List (Key × Val)) : List (Key × Val) :=
  items.foldl (fun d e => setItem d e.1 e.2) acc

/-- The text of the value reads back; a fuel past the length of the text is enough. -/
def Reads (float : String → Flt) (v : Val) : Prop :=
  ∀ (t : String) (fuel : ℕ) (rest : List Char), Follow rest → v.dumps .plain = .ok t →
    Readable float v → t.toList.length < fuel →
    value float fuel (t.toList ++ rest) = some (v.norm, rest)

theorem items_dumps : ∀ (x : Val) (xs : List Val), (∀ v ∈ x :: xs, Reads float v) →
    ∀ (y : String) (ys : List String) (fuel : ℕ) (acc : List Val) (rest : List Char),
    x.dumps .plain = .ok y → Val.dumpsList .plain xs = .ok ys → Readable float x →
    ReadableList float xs → (joined ((y :: ys).map String.toList)).length + 1 < fuel →
    items float fuel acc (joined ((y :: ys).map String.toList) ++ ']' :: rest) =
      some (acc ++ x.norm :: Val.normList xs, rest) := by
  intro x xs
  induction xs generalizing x with
  | nil =>
    intro hreads y ys fuel acc rest hy hys hv _ hf
    cases hys
    obtain ⟨fuel, rfl⟩ : ∃ k, fuel = k + 1 := ⟨fuel - 1, by omega⟩
    simp only [List.map_cons, List.map_nil, joined_one] at hf ⊢
    rw [items, hreads x (by simp) y fuel _ (Follow.bracket rest) hy hv (by omega)]
    rfl
  | cons z zs ih =>
    intro hreads y ys fuel acc rest hy hys hv hvs hf
    obtain ⟨w, hw, hys⟩ := bind_ok hys
    obtain ⟨ws, hws, rfl⟩ := map_ok hys
    obtain ⟨fuel, rfl⟩ : ∃ k, fuel = k + 1 := ⟨fuel - 1, by omega⟩
    simp only [List.map_cons, joined_cons, List.append_assoc, List.length_append, List.length_cons,
      List.cons_append] at hf ⊢
    have hspace : skipWs (' ' :: (joined (w.toList :: ws.map String.toList) ++ ']' :: rest)) =
        joined (w.toList :: ws.map String.toList) ++ ']' :: rest := by
      obtain ⟨c, cs, hc, hsp, -⟩ := head_dumps hw hvs.1
      obtain ⟨cs', hcs⟩ : ∃ cs', joined (w.toList :: ws.map String.toList) ++ ']' :: rest =
          c :: cs' := by
        cases ws <;> simp [hc]
      rw [skipWs_space, hcs, skipWs_of_head hsp]
    have hrec := ih z (fun v hv => hreads v (List.mem_cons_of_mem x hv)) w ws fuel (acc ++ [x.norm])
      rest hw hws hvs.1 hvs.2 (by rw [List.map_cons]; omega)
    rw [items, hreads x (by simp) y fuel _ (Follow.comma _) hy hv (by omega)]
    change items float fuel (acc ++ [x.norm]) (skipWs (' ' :: _)) = _
    rw [hspace, ← List.map_cons, hrec, List.append_assoc]
    rfl

theorem array_dumps {xs : List Val} (hreads : ∀ v ∈ xs, Reads float v) {ys : List String} (rest : List Char)
    (h : Val.dumpsList .plain xs = .ok ys) (hv : ReadableList float xs)
    (hf : (joined (ys.map String.toList)).length + 1 < fuel) :
    value float (fuel + 1) ('[' :: (joined (ys.map String.toList) ++ ']' :: rest)) =
      some (.list (Val.normList xs), rest) := by
  cases xs with
  | nil =>
    cases h
    rfl
  | cons x xs =>
    obtain ⟨y, hy, h⟩ := bind_ok h
    obtain ⟨ys, hys, rfl⟩ := map_ok h
    obtain ⟨c, cs, hc, hws, hbr⟩ := head_dumps hy hv.1
    obtain ⟨cs', hcs⟩ : ∃ cs', joined ((y :: ys).map String.toList) ++ ']' :: rest = c :: cs' := by
      cases ys <;> simp [hc]
    rw [value, hcs, skipWs_of_head hws]
    split
    · rename_i h
      exact absurd (List.cons.inj h).1 hbr.1
    · rw [← hcs, items_dumps x xs hreads y ys fuel [] rest hy hys hv.1 hv.2 hf]
      rfl

theorem members_dumps : ∀ (k : Key) (v : Val) (items : List (Key × Val)),
    Reads float v → (∀ e ∈ items, Reads float e.2) →
    ∀ (y : String) (es : List (Key × String)) (fuel : ℕ) (acc : List (Key × Val)) (rest : List Char),
    v.dumps .plain = .ok y → Val.dumpsItems .plain items = .ok es → Readable float v →
    ReadableItems float items → (joined (((k, y) :: es).map memberChars)).length + 1 < fuel →
    members float fuel acc (joined (((k, y) :: es).map memberChars) ++ '\x7d' :: rest) =
      some (setAll acc ((.str k.json, v.norm) :: Val.normItems items), rest) := by
  intro k v items
  induction items generalizing k v with
  | nil =>
    intro hread _ y es fuel acc rest hy hes hv _ hf
    cases hes
    obtain ⟨fuel, rfl⟩ : ∃ j, fuel = j + 1 := ⟨fuel - 1, by omega⟩
    simp only [List.map_cons, List.map_nil, joined_one] at hf ⊢
    rw [memberChars_length] at hf
    rw [members_member hy hv (hread y fuel _ (Follow.brace rest) hy hv (by omega))]
    rfl
  | cons e items ih =>
    obtain ⟨k', v'⟩ := e
    intro hread hreads y es fuel acc rest hy hes hv hvs hf
    obtain ⟨w, hw, hes⟩ := bind_ok hes
    obtain ⟨ws, hws, rfl⟩ := map_ok hes
    obtain ⟨fuel, rfl⟩ : ∃ j, fuel = j + 1 := ⟨fuel - 1, by omega⟩
    simp only [List.map_cons, joined_cons, List.append_assoc, List.length_append, List.length_cons,
      List.cons_append] at hf ⊢
    rw [memberChars_length] at hf
    have hspace : skipWs (' ' :: (joined (memberChars (k', w) :: ws.map memberChars) ++
        '\x7d' :: rest)) = joined (memberChars (k', w) :: ws.map memberChars) ++ '\x7d' :: rest := by
      obtain ⟨cs', hcs⟩ : ∃ cs', joined (memberChars (k', w) :: ws.map memberChars) ++ '\x7d' :: rest =
          '"' :: cs' := by
        cases ws <;> simp [memberChars, jsonString]
      rw [skipWs_space, hcs, skipWs_of_head rfl]
    have hrec := ih k' v' (hreads (k', v') (by simp)) (fun e he => hreads e (List.mem_cons_of_mem _ he))
      w ws fuel (setItem acc (.str k.json) v.norm) rest hw hws hvs.1 hvs.2
      (by rw [List.map_cons]; omega)
    rw [members_member hy hv (hread y fuel _ (Follow.comma _) hy hv (by omega))]
    change members float fuel (setItem acc (.str k.json) v.norm) (skipWs (' ' :: _)) = _
    rw [hspace, ← List.map_cons, hrec]
    rfl

theorem object_dumps {items : List (Key × Val)} (hreads : ∀ e ∈ items, Reads float e.2)
    {es : List (Key × String)} (rest : List Char) (h : Val.dumpsItems .plain items = .ok es)
    (hv : ReadableItems float items) (hf : (joined (es.map memberChars)).length + 1 < fuel) :
    value float (fuel + 1) ('\x7b' :: (joined (es.map memberChars) ++ '\x7d' :: rest)) =
      some (.dict (setAll [] (Val.normItems items)), rest) := by
  cases items with
  | nil =>
    cases h
    rfl
  | cons e items =>
    obtain ⟨k, v⟩ := e
    obtain ⟨y, hy, h⟩ := bind_ok h
    obtain ⟨es, hes, rfl⟩ := map_ok h
    obtain ⟨cs', hcs⟩ : ∃ cs', joined (((k, y) :: es).map memberChars) ++ '\x7d' :: rest =
        '"' :: cs' := by
      cases es <;> simp [memberChars, jsonString]
    have hmem := members_dumps k v items (hreads (k, v) (by simp))
      (fun e he => hreads e (List.mem_cons_of_mem _ he)) y es fuel [] rest hy hes hv.1 hv.2 hf
    rw [hcs] at hmem
    rw [value, hcs, skipWs_of_head rfl]
    change (members float fuel [] ('"' :: cs')).map _ = _
    rw [hmem]
    rfl

theorem reads_dumps : ∀ v : Val, Reads float v
  | .bytes b => by
    intro t fuel rest _ h _ _
    cases h
  | .none => by
    intro t fuel rest _ h _ hf
    obtain ⟨fuel, rfl⟩ : ∃ k, fuel = k + 1 := ⟨fuel - 1, by omega⟩
    cases h
    rfl
  | .bool b => by
    intro t fuel rest _ h _ hf
    obtain ⟨fuel, rfl⟩ : ∃ k, fuel = k + 1 := ⟨fuel - 1, by omega⟩
    cases h
    cases b <;> rfl
  | .int n => by
    intro t fuel rest hr h _ hf
    obtain ⟨fuel, rfl⟩ : ∃ k, fuel = k + 1 := ⟨fuel - 1, by omega⟩
    cases h
    exact value_int float fuel n hr
  | .float f => by
    intro t fuel rest hr h hv hf
    obtain ⟨fuel, rfl⟩ : ∃ k, fuel = k + 1 := ⟨fuel - 1, by omega⟩
    cases h
    exact hv.value fuel rest hr
  | .str s => by
    intro t fuel rest _ h _ hf
    obtain ⟨fuel, rfl⟩ : ∃ k, fuel = k + 1 := ⟨fuel - 1, by omega⟩
    cases h
    obtain ⟨h1, h2⟩ := text_jsonString s rest
    rw [h1, List.cons_append, List.append_assoc, List.singleton_append, value, h2]
    rfl
  | .list xs | .tuple xs => by
    intro t fuel rest _ h hv hf
    obtain ⟨fuel, rfl⟩ : ∃ k, fuel = k + 1 := ⟨fuel - 1, by omega⟩
    obtain ⟨ys, hys, ht⟩ := dumps_array h
    rw [ht, List.cons_append, List.append_assoc]
    exact array_dumps (fun v hmem => reads_dumps v) rest hys hv (by simpa [ht] using hf)
  | .dict items => by
    intro t fuel rest _ h hv hf
    obtain ⟨fuel, rfl⟩ : ∃ k, fuel = k + 1 := ⟨fuel - 1, by omega⟩
    obtain ⟨es, hes, ht⟩ := dumps_object h
    rw [ht, List.cons_append, List.append_assoc]
    exact object_dumps (fun e hmem => reads_dumps e.2) rest hes hv (by simpa [ht] using hf)
termination_by v => sizeOf v
decreasing_by
  · have := List.sizeOf_lt_of_mem hmem
    simp only [Val.list.sizeOf_spec]
    omega
  · have := List.sizeOf_lt_of_mem hmem
    simp only [Val.tuple.sizeOf_spec]
    omega
  · have := List.sizeOf_lt_of_mem hmem
    obtain ⟨k, v⟩ := e
    simp only [Val.dict.sizeOf_spec, Prod.mk.sizeOf_spec] at this ⊢
    omega

/-- **The round trip.**  The text of a value reads back as what the value is to JSON. -/
theorem loads_dumps (h : v.dumps .plain = .ok t) (hv : Readable float v) :
    loads float t = some v.norm := by
  have hval := reads_dumps v t (t.toList.length + 1) [] Follow.done h hv (by omega)
  rw [List.append_nil] at hval
  have hskip := skipWs_dumps h hv []
  rw [List.append_nil] at hskip
  have hbom : t.toList.head? ≠ some (Char.ofNat 0xFEFF) := by
    obtain ⟨c, cs, hc, -, -, hascii⟩ := head_dumps h hv
    rw [hc, List.head?_cons, ne_eq, Option.some.injEq]
    rintro rfl
    revert hascii
    decide
  unfold loads
  rw [if_neg hbom, hskip, hval]
  rfl

/-! ### Documents -/

def KeysNodup (d : Doc) : Prop := (d.map Prod.fst).Nodup

theorem KeysNodup.set {d : Doc} (h : KeysNodup d) (k : String) (v : Val) : KeysNodup (d.set k v) := by
  unfold KeysNodup at h ⊢
  induction d with
  | nil => simp [Doc.set]
  | cons e d ih =>
    obtain ⟨k₀, v₀⟩ := e
    rw [List.map_cons, List.nodup_cons] at h
    unfold Doc.set
    split_ifs with hk
    · subst hk
      exact List.nodup_cons.mpr h
    · refine List.nodup_cons.mpr ⟨?_, ih h.2⟩
      intro hmem
      obtain ⟨e, he, hek⟩ := List.mem_map.mp hmem
      have hset : ∀ d : Doc, e ∈ d.set k v → e.1 = k ∨ e ∈ d := by
        intro d
        induction d with
        | nil =>
          intro hd
          exact .inl (by rw [List.mem_singleton.mp hd])
        | cons x d ihd =>
          unfold Doc.set
          split_ifs with hx
          · intro hd
            rcases List.mem_cons.mp hd with rfl | hd
            · exact .inl rfl
            · exact .inr (by simp [hd])
          · intro hd
            rcases List.mem_cons.mp hd with rfl | hd
            · exact .inr (by simp)
            · rcases ihd hd with h' | h'
              · exact .inl h'
              · exact .inr (by simp [h'])
      rcases hset d he with h' | h'
      · exact hk (hek.symm.trans h')
      · exact h.1 (List.mem_map.mpr ⟨e, h', hek⟩)

theorem setAll_normItems : ∀ (d : Doc) (acc : List (Key × Val)),
    (acc.map Prod.fst ++ d.toItems.map Prod.fst).Nodup →
    setAll acc (Val.normItems d.toItems) = acc ++ d.norm.toItems
  | [], acc, _ => by simp [setAll, Doc.toItems, Doc.norm, Val.normItems]
  | (k, v) :: d, acc, h => by
    have hset : ∀ acc : List (Key × Val), .str k ∉ acc.map Prod.fst →
        setItem acc (.str k) v.norm = acc ++ [(.str k, v.norm)] := by
      intro acc
      induction acc with
      | nil => exact fun _ => rfl
      | cons e acc ih =>
        intro hne
        rw [List.map_cons, List.mem_cons, not_or] at hne
        rw [setItem, if_neg (Ne.symm hne.1), ih hne.2]
        rfl
    have hk : Key.str k ∉ acc.map Prod.fst := by
      intro hmem
      exact (List.nodup_append.mp h).2.2 _ hmem _ (by simp [Doc.toItems]) rfl
    have hrec := setAll_normItems d (setItem acc (.str k) v.norm) (by
      rw [hset acc hk]
      simpa [Doc.toItems] using h)
    change setAll (setItem acc (.str k) v.norm) (Val.normItems (Doc.toItems d)) = _
    rw [hrec, hset acc hk, List.append_assoc]
    rfl

/-- **Documents.**  The text of a dictionary reads back as the dictionary. -/
theorem loads_doc {d : Doc} (hd : KeysNodup d) (h : d.dumps .plain = .ok t)
    (hv : ReadableItems float d.toItems) : loads float t = some (.dict d.norm.toItems) := by
  rw [loads_dumps h hv]
  have hkeys : ((([] : List (Key × Val)).map Prod.fst) ++ d.toItems.map Prod.fst).Nodup := by
    have hmap : d.toItems.map Prod.fst = (d.map Prod.fst).map Key.str := by
      simp [Doc.toItems]
    rw [List.map_nil, List.nil_append, hmap]
    exact List.Nodup.map (fun _ _ h => Key.str.inj h) hd
  have := setAll_normItems d [] hkeys
  rw [List.nil_append] at this
  rw [Val.norm]
  exact congrArg (fun items => some (Val.dict items)) this

end Reader

end Mantle.Json

namespace Mantle

@[simp] theorem docOfItems_toItems (d : Doc) : docOfItems d.toItems = d := by
  simp [docOfItems, Doc.toItems, Function.comp_def, Key.pyStr]

end Mantle
