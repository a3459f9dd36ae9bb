import Mantle.Db.OrderKeys
import Mathlib.Data.List.GetD

/-!
# Mantle.Db.MidKey — a key between two keys (`mid_key`)

Where one key goes on from the other, its next characters are met with the pad, and a key below the pad is left behind.
-/

namespace Mantle

attribute [local instance (1100)] List.decidableBAll

def alphFind (c : Char) : ℤ := if c ∈ orderAlphabet then orderAlphabet.idxOf c else -1

def midDigit (ca cb : ℤ) : Char := orderAlphabet.getD ((ca + cb) / 2).toNat 'U'

/-- The loop of `mid_key`; the fuel is how many positions are left to look at. -/
def midLoop (a b : List Char) : ℕ → ℕ → List Char
  | 0, _ => a ++ ['1']
  | fuel + 1, i =>
    let ca := (a[i]?.map alphFind).getD (alphFind 'U')
    let cb := (b[i]?.map alphFind).getD (orderAlphabet.length - 1)
    if ca + 1 < cb then (if i < a.length then a.take i else a) ++ [midDigit ca cb]
    else midLoop a b fuel (i + 1)

def midKey : Option String → Option String → String
  | none, none => "U"
  | some a, none => a ++ "U"
  | a, some b =>
    let a := (a.getD "").toList
    String.ofList (midLoop a b.toList (max a.length b.length + 5) 0)

def IsKey (k : String) : Prop := k ≠ "" ∧ ∀ c ∈ k.toList, c ∈ orderAlphabet

def Between (a b : Option String) (k : String) : Prop := (∀ x ∈ a, x < k) ∧ ∀ y ∈ b, k < y

/-- Past characters up to `V` comes a `W` or an `X`. -/
def fits : List Char → Bool
  | [] => false
  | c :: s => if c ≤ 'V' then fits s else decide (c ≤ 'X')

/-- What a key goes on with leaves room above the pad. -/
def aboveV : List Char → Bool
  | [] => false
  | c :: s => decide ('V' < c) || (decide (c = 'V') && fits s)

/-! ### The loop, character by character -/

/-- What the loop makes of what is left of the two keys. -/
def mid : List Char → List Char → List Char
  | x :: s, y :: t => if alphFind x + 1 < alphFind y then [midDigit (alphFind x) (alphFind y)] else x :: mid s t
  | x :: s, [] => if alphFind x + 1 < 61 then [midDigit (alphFind x) 61] else x :: mid s []
  | [], y :: t => if 31 < alphFind y then [midDigit 30 (alphFind y)] else mid [] t
  | [], [] => ['j']

theorem midDigit_between : ∀ x ∈ orderAlphabet, ∀ y ∈ orderAlphabet, alphFind x + 1 < alphFind y →
    x < midDigit (alphFind x) (alphFind y) ∧ midDigit (alphFind x) (alphFind y) < y := by
  have hfind : ∀ i (hi : i < orderAlphabet.length), alphFind orderAlphabet[i] = i := fun i hi => by
    have hnodup : orderAlphabet.Nodup := orderAlphabet_increasing.imp ne_of_lt
    rw [alphFind, if_pos (List.getElem_mem hi), hnodup.idxOf_getElem i hi]
  intro x hx y hy h
  obtain ⟨i, hi, rfl⟩ := List.getElem_of_mem hx
  obtain ⟨j, hj, rfl⟩ := List.getElem_of_mem hy
  rw [hfind i hi, hfind j hj] at h ⊢
  have hmid : (i + j) / 2 < orderAlphabet.length := by omega
  have hdigit : midDigit i j = orderAlphabet[(i + j) / 2] := List.getD_eq_getElem _ _ hmid
  rw [hdigit]
  have hlt := List.pairwise_iff_getElem.mp orderAlphabet_increasing
  exact ⟨hlt i _ hi hmid (by omega), hlt _ j hmid hj (by omega)⟩

theorem mid_eq (s t : List Char) : mid s t =
    if (s.head?.map alphFind).getD 30 + 1 < (t.head?.map alphFind).getD 61 then
      [midDigit ((s.head?.map alphFind).getD 30) ((t.head?.map alphFind).getD 61)]
    else s.head?.toList ++ mid s.tail t.tail := by
  cases s <;> cases t <;> rw [mid] <;> rfl

theorem mid_cons_cons (x y : Char) (s t : List Char) : mid (x :: s) (y :: t) =
    if alphFind x + 1 < alphFind y then [midDigit (alphFind x) (alphFind y)] else x :: mid s t :=
  mid_eq _ _

theorem mid_cons_nil (x : Char) (s : List Char) : mid (x :: s) [] =
    if alphFind x + 1 < 61 then [midDigit (alphFind x) 61] else x :: mid s [] :=
  mid_eq _ _

theorem mid_nil_cons (y : Char) (t : List Char) : mid [] (y :: t) =
    if 31 < alphFind y then [midDigit 30 (alphFind y)] else mid [] t :=
  mid_eq _ _

theorem mid_nil_nil : mid [] [] = ['j'] :=
  mid_eq _ _

theorem midLoop_eq (a b : List Char) : ∀ fuel i, i ≤ max a.length b.length → max a.length b.length < i + fuel →
    midLoop a b fuel i = a.take i ++ mid (a.drop i) (b.drop i)
  | 0, i, hi, h => by omega
  | fuel + 1, i, hi, h => by
    have htake : (if i < a.length then a.take i else a) = a.take i := by
      split
      · rfl
      · exact (List.take_of_length_le (by omega)).symm
    rw [midLoop, mid_eq, htake, List.head?_drop, List.head?_drop, List.tail_drop, List.tail_drop]
    change (if (a[i]?.map alphFind).getD 30 + 1 < (b[i]?.map alphFind).getD 61 then _ else _) = _
    split
    · rfl
    · next hstop =>
      -- past both keys the pad and the last digit leave room: the loop has stopped there
      have hmore : i + 1 ≤ max a.length b.length := by
        by_contra hn
        rw [List.getElem?_eq_none (by omega), List.getElem?_eq_none (by omega)] at hstop
        exact hstop (by decide)
      rw [midLoop_eq a b fuel (i + 1) hmore (by omega), List.take_add_one, List.append_assoc]

variable {A B : List Char}

theorem lt_mid (hA : ∀ c ∈ A, c ∈ orderAlphabet) : ∀ B : List Char, (∀ c ∈ B, c ∈ orderAlphabet) → A < mid A B := by
  induction A with
  | nil =>
    intro B hB
    induction B with
    | nil =>
      rw [mid_nil_nil]
      exact List.nil_lt_cons ..
    | cons y t ih =>
      rw [mid_nil_cons]
      split
      · exact List.nil_lt_cons ..
      · exact ih fun c hc => hB c (List.mem_cons_of_mem _ hc)
  | cons x s ih =>
    have ih := ih fun c hc => hA c (List.mem_cons_of_mem _ hc)
    have hx := hA x (List.mem_cons_self ..)
    rintro (_ | ⟨y, t⟩) hB <;> [rw [mid_cons_nil]; rw [mid_cons_cons]] <;> split
    · next h => exact List.Lex.rel (midDigit_between x hx 'z' (by decide) h).1
    · exact List.Lex.cons (ih [] hB)
    · next h => exact List.Lex.rel (midDigit_between x hx y (hB y (List.mem_cons_self ..)) h).1
    · exact List.Lex.cons (ih t fun c hc => hB c (List.mem_cons_of_mem _ hc))

theorem above_pad : ∀ y ∈ orderAlphabet, (31 < alphFind y ↔ 'V' < y) ∧ (31 < alphFind y →
    'V' ≤ midDigit 30 (alphFind y) ∧ (midDigit 30 (alphFind y) = 'V' ↔ y ≤ 'X')) := by decide +kernel

theorem mid_nil : ∀ t : List Char, (∀ c ∈ t, c ∈ orderAlphabet) →
    ∃ c, mid [] t = [c] ∧ 'V' ≤ c ∧ (c = 'V' ↔ fits t)
  | [], _ => ⟨'j', mid_nil_nil, by decide, by decide⟩
  | y :: t, h => by
    obtain ⟨hroom, hdigit⟩ := above_pad y (h y (List.mem_cons_self ..))
    rw [mid_nil_cons, fits]
    split
    · next hlt =>
      obtain ⟨hle, heq⟩ := hdigit hlt
      rw [if_neg (not_le.mpr (hroom.mp hlt)), decide_eq_true_iff]
      exact ⟨_, rfl, hle, heq⟩
    · next hlt =>
      rw [if_pos (not_lt.mp (hlt ∘ hroom.mpr))]
      exact mid_nil t fun c hc => h c (List.mem_cons_of_mem _ hc)

theorem mid_nil_lt (hB : ∀ c ∈ B, c ∈ orderAlphabet) : mid [] B < B ↔ aboveV B = true := by
  cases B with
  | nil => exact ⟨fun h => absurd h (List.not_lt_nil _), nofun⟩
  | cons y t =>
    have hy := hB y (List.mem_cons_self ..)
    have ht : ∀ c ∈ t, c ∈ orderAlphabet := fun c hc => hB c (List.mem_cons_of_mem _ hc)
    have hroom := (above_pad y hy).1
    rw [aboveV, Bool.or_eq_true, Bool.and_eq_true, decide_eq_true_iff, decide_eq_true_iff]
    by_cases hlt : 31 < alphFind y
    · rw [mid_nil_cons, if_pos hlt]
      exact ⟨fun _ => .inl (hroom.mp hlt), fun _ => List.Lex.rel (midDigit_between 'U' (by decide) y hy hlt).2⟩
    · obtain ⟨c, hc, hle, heq⟩ := mid_nil t ht
      have hyV : y ≤ 'V' := not_lt.mp (hlt ∘ hroom.mpr)
      rw [mid_nil_cons, if_neg hlt, hc, List.cons_lt_cons_iff, ← heq]
      constructor
      · rintro (h | ⟨rfl, -⟩)
        · exact absurd (h.trans_le (hyV.trans hle)) (lt_irrefl c)
        · exact .inr ⟨le_antisymm hyV hle, le_antisymm hyV hle⟩
      · rintro (h | ⟨rfl, rfl⟩)
        · exact absurd h (not_lt.mpr hyV)
        · refine .inr ⟨rfl, ?_⟩
          cases t with
          | nil => exact absurd (heq.mp rfl) (by decide)
          | cons z t => exact List.nil_lt_cons ..

theorem mid_lt (hA : ∀ c ∈ A, c ∈ orderAlphabet) : ∀ B : List Char, (∀ c ∈ B, c ∈ orderAlphabet) → A < B →
    (mid A B < B ↔ ∀ r, B = A ++ r → aboveV r = true) := by
  induction A with
  | nil => exact fun B hB _ => (mid_nil_lt hB).trans ⟨fun h r hr => (show B = r from hr) ▸ h, fun h => h B rfl⟩
  | cons x s ih =>
    rintro (_ | ⟨y, t⟩) hB hAB
    · exact absurd hAB (List.not_lt_nil _)
    have hx := hA x (List.mem_cons_self ..)
    have hy := hB y (List.mem_cons_self ..)
    rw [mid_cons_cons]
    rcases List.cons_lt_cons_iff.mp hAB with hlt | ⟨rfl, hst⟩
    · refine ⟨fun _ r hr => absurd (List.cons.inj hr).1 hlt.ne', fun _ => ?_⟩
      split
      · next h => exact List.Lex.rel (midDigit_between x hx y hy h).2
      · exact List.Lex.rel hlt
    · rw [if_neg (by omega), List.cons_lt_cons_iff]
      have ih := ih (fun c hc => hA c (List.mem_cons_of_mem _ hc)) t (fun c hc => hB c (List.mem_cons_of_mem _ hc)) hst
      simpa only [lt_irrefl, false_or, true_and, List.cons_append, List.cons.injEq] using ih

theorem least_char : ∀ c ∈ orderAlphabet, '0' ≤ c := by decide

theorem zero_lt {r : List Char} (hr : ∀ c ∈ r, c ∈ orderAlphabet) (hne : r ≠ []) (h0 : r ≠ ['0']) : ['0'] < r := by
  cases r with
  | nil => exact absurd rfl hne
  | cons c s =>
    refine List.cons_lt_cons_iff.mpr ((least_char c (hr c (List.mem_cons_self ..))).lt_or_eq.imp_right ?_)
    rintro rfl
    cases s with
    | nil => exact absurd rfl h0
    | cons d s => exact ⟨rfl, List.nil_lt_cons ..⟩

theorem no_key_before_zero {K : List Char} : ∀ A : List Char, (∀ c ∈ K, c ∈ orderAlphabet) → A < K → ¬K < A ++ ['0']
  | [], hK, h, hlt => by
    cases K with
    | nil => exact absurd h (List.not_lt_nil _)
    | cons c k =>
      rcases List.cons_lt_cons_iff.mp hlt with hc | ⟨-, hk⟩
      · exact absurd (least_char c (hK c (List.mem_cons_self ..))) (not_le.mpr hc)
      · exact List.not_lt_nil _ hk
  | x :: A, hK, h, hlt => by
    cases K with
    | nil => exact absurd h (List.not_lt_nil _)
    | cons c k =>
      rcases List.cons_lt_cons_iff.mp h with hc | ⟨rfl, hk⟩
      · rcases List.cons_lt_cons_iff.mp hlt with hc' | ⟨rfl, -⟩
        · exact absurd hc (lt_asymm hc')
        · exact absurd hc (lt_irrefl _)
      · rcases List.cons_lt_cons_iff.mp hlt with hc' | ⟨-, hk'⟩
        · exact absurd hc' (lt_irrefl _)
        · exact no_key_before_zero A (fun c hc => hK c (List.mem_cons_of_mem _ hc)) hk hk'

/-! ### Between its arguments -/

theorem midKey_none_right (a : Option String) : Between a none (midKey a none) := by
  refine ⟨fun x hx => ?_, nofun⟩
  cases hx
  rw [midKey, String.lt_iff_toList_lt, String.toList_append]
  exact lt_of_eq_of_lt (List.append_nil _).symm (List.append_left_lt (List.nil_lt_cons 'U' []))

theorem midKey_some (a : Option String) (b : String) :
    midKey a (some b) = String.ofList (mid (a.getD "").toList b.toList) := by
  have hloop : midLoop (a.getD "").toList b.toList (max (a.getD "").toList.length b.length + 5) 0 =
      mid (a.getD "").toList b.toList := by
    refine midLoop_eq _ _ _ _ (Nat.zero_le _) ?_
    rw [String.length_toList, String.length_toList]
    omega
  rw [← hloop]
  cases a <;> rfl

theorem between_some_iff {a : Option String} {y k : String} (hk : k ≠ "") :
    Between a (some y) k ↔ (a.getD "").toList < k.toList ∧ k.toList < y.toList := by
  have hpos : ([] : List Char) < k.toList := List.not_le.mp fun h => hk (String.toList_eq_nil_iff.mp (List.le_nil.mp h))
  cases a with
  | none => exact ⟨fun h => ⟨hpos, String.lt_iff_toList_lt.mp (h.2 y rfl)⟩,
      fun h => ⟨nofun, fun _ hy => Option.some.inj hy ▸ String.lt_iff_toList_lt.mpr h.2⟩⟩
  | some x => exact ⟨fun h => ⟨String.lt_iff_toList_lt.mp (h.1 x rfl), String.lt_iff_toList_lt.mp (h.2 y rfl)⟩,
      fun h => ⟨fun _ hx => Option.some.inj hx ▸ String.lt_iff_toList_lt.mpr h.1,
        fun _ hy => Option.some.inj hy ▸ String.lt_iff_toList_lt.mpr h.2⟩⟩

/-- `mid_key` finds a key between its arguments, where there is one, exactly when what the upper key goes on with past
the lower one reaches above the pad. -/
theorem midKey_between_iff (a b : Option String) (ha : ∀ x ∈ a, IsKey x) (hb : ∀ y ∈ b, IsKey y)
    (hab : ∀ x ∈ a, ∀ y ∈ b, x < y) :
    ((∃ k, IsKey k ∧ Between a b k) → Between a b (midKey a b)) ↔
      ∀ y ∈ b, ∀ r, y = a.getD "" ++ r → aboveV r.toList = true ∨ r = "0" := by
  cases b with
  | none => exact ⟨fun _ => nofun, fun _ _ => midKey_none_right a⟩
  | some y =>
    obtain ⟨hne, hy⟩ := hb y rfl
    have hA : ∀ c ∈ (a.getD "").toList, c ∈ orderAlphabet := by
      cases a with
      | none => nofun
      | some x => exact (ha x rfl).2
    have hlt : (a.getD "").toList < y.toList := by
      cases a with
      | none => exact List.not_le.mp fun h => hne (String.toList_eq_nil_iff.mp (List.le_nil.mp h))
      | some x => exact String.lt_iff_toList_lt.mp (hab x rfl y rfl)
    have hlo := lt_mid hA _ hy
    have hkey : Between a (some y) (midKey a (some y)) ↔ ∀ r, y.toList = (a.getD "").toList ++ r → aboveV r = true := by
      rw [midKey_some, between_some_iff, String.toList_ofList, ← mid_lt hA _ hy hlt, and_iff_right hlo]
      intro h
      rw [String.ofList_eq_empty_iff.mp h] at hlo
      exact List.not_lt_nil _ hlo
    rw [hkey]
    constructor
    · rintro h _ ⟨⟩ r rfl
      rw [String.toList_append] at h hlt hy
      refine or_iff_not_imp_right.mpr fun h0 => h ⟨a.getD "" ++ "0", ?_⟩ _ rfl
      have hzero : (a.getD "" ++ "0").toList = (a.getD "").toList ++ ['0'] := String.toList_append ..
      have hne : a.getD "" ++ "0" ≠ "" := fun h => by simp [h] at hzero
      rw [between_some_iff hne, hzero, String.toList_append]
      refine ⟨⟨hne, ?_⟩, ?_, List.append_left_lt (zero_lt ?_ ?_ fun h => h0 (String.toList_injective h))⟩
      · rw [hzero]
        exact fun c hc => (List.mem_append.mp hc).elim (hA c) fun hc => List.mem_singleton.mp hc ▸ by decide
      · exact lt_of_eq_of_lt (List.append_nil _).symm (List.append_left_lt (List.nil_lt_cons '0' []))
      · exact fun c hc => hy c (List.mem_append_right _ hc)
      · rintro hr
        rw [hr, List.append_nil] at hlt
        exact lt_irrefl _ hlt
    · rintro h ⟨k, ⟨hk, hmem⟩, hbetween⟩ r hr
      obtain ⟨hak, hky⟩ := (between_some_iff hk).mp hbetween
      have hy : y = a.getD "" ++ String.ofList r := by
        rw [← String.toList_inj, String.toList_append, hr, String.toList_ofList]
      rcases h y rfl (String.ofList r) hy with hreach | h0
      · rwa [String.toList_ofList] at hreach
      · have hr0 : r = ['0'] := by rw [← String.toList_ofList (l := r), h0]; rfl
        exact absurd (hr0 ▸ hr ▸ hky) (no_key_before_zero _ hmem hak)

theorem midKey_between_A_AW : Between (some "A") (some "AW") (midKey (some "A") (some "AW")) := by
  have hkeys : ∀ x ∈ some "A", ∀ y ∈ some "AW", IsKey x ∧ IsKey y ∧ IsKey "AU" ∧ x < "AU" ∧ "AU" < y ∧ x < y := by
    rintro _ ⟨⟩ _ ⟨⟩
    exact ⟨⟨by decide, by decide⟩, ⟨by decide, by decide⟩, ⟨by decide, by decide⟩, by decide, by decide, by decide⟩
  have h := hkeys "A" rfl "AW" rfl
  refine (midKey_between_iff (some "A") (some "AW") (fun x hx => (hkeys x hx _ rfl).1)
    (fun y hy => (hkeys _ rfl y hy).2.1) (fun x hx y hy => (hkeys x hx y hy).2.2.2.2.2)).mpr ?_
    ⟨"AU", h.2.2.1, fun x hx => (hkeys x hx _ rfl).2.2.2.1, fun y hy => (hkeys _ rfl y hy).2.2.2.2.1⟩
  rintro _ ⟨⟩ r hr
  have hr' : r.toList = ['W'] := by simpa using (congrArg String.toList hr).symm
  exact .inl (hr' ▸ by decide)

theorem midKey_misses : (∃ k, IsKey k ∧ Between (some "A") (some "A1") k) ∧
    ¬Between (some "A") (some "A1") (midKey (some "A") (some "A1")) := by
  refine ⟨⟨"A0", ⟨by decide, by decide⟩, ?_, ?_⟩, fun h => absurd (h.2 "A1" rfl) (by decide)⟩ <;> rintro _ ⟨⟩ <;> decide

end Mantle
