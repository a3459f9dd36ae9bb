import Mantle.Search.QueryControls
import Mathlib.Data.List.Flatten

/-!
# Mantle.Search.QueryTokens — tokens and filters are read back

Every text is cut into words, quoted texts and at most one quote left open.  A filter is spelled in tokens that are
read as the same filter.
-/

namespace Mantle

namespace Query

attribute [local instance (1100)] List.decidableBAll

variable {consumed : Bool} {field r rest s token w x : Text} {next : Option Text}
  {tokens : List Text}

/-! ### Tokens -/

/-- What the tokens of a text are; a quote that is left open takes the rest of the text. -/
inductive Tok
  | word (w : Text)
  | quoted (x : Text)
  | opened (x : Text)

namespace Tok

def text : Tok → Text
  | word w => w
  | quoted x => '"' :: x ++ ['"']
  | opened x => '"' :: x

def isOpened : Tok → Bool
  | opened _ => true
  | _ => false

def phrase : Tok → Option Text
  | quoted x => if x = [] then none else some x
  | _ => none

/-- A word has no quote and no space, and no token has a quote inside. -/
def Ok (U : CharTable) : Tok → Prop
  | word w => w ≠ [] ∧ ∀ c ∈ w, U.isSpace c = false ∧ c ≠ '"'
  | quoted x => '"' ∉ x
  | opened x => '"' ∉ x

end Tok

section Tokens

variable {U : CharTable}

theorem tokenize_cons {cur : Text} {inQ : Bool} {c : Char} : tokenize U cur inQ (c :: s) =
    if c = '"' then
      if inQ then (cur ++ [c]) :: tokenize U [] false s
      else (if cur = [] then [] else [cur]) ++ tokenize U [c] true s
    else if U.isSpace c && !inQ then (if cur = [] then [] else [cur]) ++ tokenize U [] false s
    else tokenize U (cur ++ [c]) inQ s := rfl

theorem tokenize_word (hw : ∀ c ∈ w, U.isSpace c = false ∧ c ≠ '"') : ∀ {cur s : Text},
    tokenize U cur false (w ++ s) = tokenize U (cur ++ w) false s := by
  induction w with
  | nil => simp
  | cons c w ih =>
    intro cur s
    have hc := hw c List.mem_cons_self
    rw [List.cons_append, tokenize_cons, if_neg hc.2, if_neg (by simp [hc.1]),
      ih fun d hd => hw d (List.mem_cons_of_mem _ hd), List.append_assoc]
    rfl

theorem tokenize_inside (hx : '"' ∉ x) : ∀ {cur s : Text},
    tokenize U cur true (x ++ s) = tokenize U (cur ++ x) true s := by
  induction x with
  | nil => simp
  | cons c x ih =>
    intro cur s
    rw [List.mem_cons, not_or] at hx
    rw [List.cons_append, tokenize_cons, if_neg fun h => hx.1 h.symm, if_neg (by simp), ih hx.2, List.append_assoc]
    rfl

/-- **Every text is cut into tokens.** -/
theorem tokenize_spec : ∀ (s cur : Text) (inQ : Bool),
    (inQ = false → ∀ c ∈ cur, U.isSpace c = false ∧ c ≠ '"') → (inQ = true → ∃ x, cur = '"' :: x ∧ '"' ∉ x) →
    ∃ ts : List Tok, tokenize U cur inQ s = ts.map Tok.text ∧
      ts.Pairwise (fun t _ => t.isOpened = false) ∧ ∀ t ∈ ts, t.Ok U ∧ t.text <:+: cur ++ s
  | [], cur, inQ, hword, hopen => by
    unfold tokenize
    by_cases hcur : cur = []
    · rw [if_pos hcur]
      exact ⟨[], rfl, List.Pairwise.nil, by simp⟩
    · rw [if_neg hcur]
      cases inQ with
      | false =>
        refine ⟨[.word cur], rfl, List.pairwise_singleton _ _, ?_⟩
        intro t ht
        rw [List.mem_singleton.mp ht]
        exact ⟨⟨hcur, hword rfl⟩, by simp [Tok.text]⟩
      | true =>
        obtain ⟨x, rfl, hx⟩ := hopen rfl
        refine ⟨[.opened x], rfl, List.pairwise_singleton _ _, ?_⟩
        intro t ht
        rw [List.mem_singleton.mp ht]
        exact ⟨hx, by simp [Tok.text]⟩
  | c :: s, cur, inQ, hword, hopen => by
    rw [tokenize_cons]
    -- the run that was open, as a word
    have hrun : inQ = false → ∃ ts : List Tok, (if cur = [] then [] else [cur]) = ts.map Tok.text ∧
        ts.Pairwise (fun t _ => t.isOpened = false) ∧
        ∀ t ∈ ts, t.Ok U ∧ t.isOpened = false ∧ t.text <:+: cur ++ c :: s := by
      intro hq
      by_cases hcur : cur = []
      · exact ⟨[], by simp [hcur], List.Pairwise.nil, by simp⟩
      · refine ⟨[.word cur], by simp [hcur, Tok.text], List.pairwise_singleton _ _, ?_⟩
        intro t ht
        rw [List.mem_singleton.mp ht]
        exact ⟨⟨hcur, hword hq⟩, rfl, ⟨[], c :: s, by simp [Tok.text]⟩⟩
    by_cases hc : c = '"'
    · rw [if_pos hc]
      cases inQ with
      | true =>
        rw [if_pos rfl]
        obtain ⟨x, rfl, hx⟩ := hopen rfl
        obtain ⟨ts, heq, hpw, hok⟩ := tokenize_spec s [] false (by simp) (by simp)
        refine ⟨.quoted x :: ts, ?_, List.pairwise_cons.mpr ⟨fun _ _ => rfl, hpw⟩, ?_⟩
        · rw [heq, hc]
          rfl
        · rw [List.forall_mem_cons]
          refine ⟨⟨hx, [], s, by simp [Tok.text, hc]⟩, ?_⟩
          exact fun t ht => ⟨(hok t ht).1, (hok t ht).2.trans ⟨'"' :: x ++ [c], [], by simp⟩⟩
      | false =>
        rw [if_neg (by simp)]
        obtain ⟨us, hus, hupw, huok⟩ := hrun rfl
        obtain ⟨ts, heq, hpw, hok⟩ := tokenize_spec s [c] true (by simp) (fun _ => ⟨[], by rw [hc], by simp⟩)
        refine ⟨us ++ ts, by rw [hus, heq, List.map_append], ?_, ?_⟩
        · exact List.pairwise_append.mpr ⟨hupw, hpw, fun u hu _ _ => (huok u hu).2.1⟩
        · intro t ht
          rcases List.mem_append.mp ht with ht | ht
          · exact ⟨(huok t ht).1, (huok t ht).2.2⟩
          · exact ⟨(hok t ht).1, (hok t ht).2.trans ⟨cur, [], by simp⟩⟩
    · rw [if_neg hc]
      by_cases hs : (U.isSpace c && !inQ) = true
      · rw [if_pos hs]
        rw [Bool.and_eq_true, Bool.not_eq_true'] at hs
        obtain ⟨us, hus, hupw, huok⟩ := hrun hs.2
        obtain ⟨ts, heq, hpw, hok⟩ := tokenize_spec s [] false (by simp) (by simp)
        refine ⟨us ++ ts, by rw [hus, heq, List.map_append], ?_, ?_⟩
        · exact List.pairwise_append.mpr ⟨hupw, hpw, fun u hu _ _ => (huok u hu).2.1⟩
        · intro t ht
          rcases List.mem_append.mp ht with ht | ht
          · exact ⟨(huok t ht).1, (huok t ht).2.2⟩
          · exact ⟨(hok t ht).1, (hok t ht).2.trans ⟨cur ++ [c], [], by simp⟩⟩
      · rw [if_neg hs]
        have hword' : inQ = false → ∀ d ∈ cur ++ [c], U.isSpace d = false ∧ d ≠ '"' := by
          rintro rfl d hd
          rcases List.mem_append.mp hd with hd | hd
          · exact hword rfl d hd
          · rw [List.mem_singleton.mp hd]
            exact ⟨by simpa using hs, hc⟩
        have hopen' : inQ = true → ∃ x, cur ++ [c] = '"' :: x ∧ '"' ∉ x := by
          intro hq
          obtain ⟨x, rfl, hx⟩ := hopen hq
          exact ⟨x ++ [c], rfl, by simpa [hx] using fun h => hc h.symm⟩
        obtain ⟨ts, heq, hpw, hok⟩ := tokenize_spec s (cur ++ [c]) inQ hword' hopen'
        exact ⟨ts, heq, hpw, fun t ht => ⟨(hok t ht).1, by simpa using (hok t ht).2⟩⟩

/-- A piece of text that reads as these tokens before a space or the end. -/
def Reads (U : CharTable) (p : Text) (ts : List Text) : Prop :=
  ∀ r : Text, (∀ c ∈ r.head?, U.isSpace c = true) → tokenize U [] false (p ++ r) = ts ++ tokenize U [] false r

theorem tokenize_space {c : Char} (hc : U.isSpace c = true) :
    tokenize U [] false (c :: s) = tokenize U [] false s := by
  have hne : c ≠ '"' := by
    rintro rfl
    rw [mark_space (by decide)] at hc
    cases hc
  rw [tokenize_cons, if_neg hne, if_pos (by simp [hc])]
  rfl

theorem tokenize_close (hw : w ≠ []) (hr : ∀ c ∈ r.head?, U.isSpace c = true) :
    tokenize U w false r = w :: tokenize U [] false r := by
  cases r with
  | nil =>
    unfold tokenize
    rw [if_neg hw]
    rfl
  | cons c r =>
    have hc := hr c rfl
    rw [tokenize_space hc]
    have hne : c ≠ '"' := by
      rintro rfl
      rw [mark_space (by decide)] at hc
      cases hc
    rw [tokenize_cons, if_neg hne, if_pos (by simp [hc]), if_neg hw]
    rfl

theorem reads_word (h : (Tok.word w).Ok U) : Reads U w [w] := by
  intro r hr
  rw [tokenize_word h.2, List.nil_append, tokenize_close h.1 hr]
  rfl

theorem tokenize_quoted (hx : '"' ∉ x) :
    tokenize U [] false ('"' :: x ++ '"' :: r) = ('"' :: x ++ ['"']) :: tokenize U [] false r := by
  rw [List.cons_append, tokenize_cons, if_pos rfl, if_neg (by simp), if_pos rfl, List.nil_append, tokenize_inside hx,
    tokenize_cons, if_pos rfl, if_pos rfl]
  rfl

theorem reads_quoted (h : (Tok.quoted x).Ok U) : Reads U (Tok.quoted x).text [(Tok.quoted x).text] := by
  intro r _
  have := tokenize_quoted (U := U) (x := x) (r := r) h
  simpa [Tok.text] using this

theorem reads_word_quoted (hw : (Tok.word w).Ok U) (hx : '"' ∉ x) :
    Reads U (w ++ ('"' :: x ++ ['"'])) [w, '"' :: x ++ ['"']] := by
  intro r _
  have hq := tokenize_quoted (U := U) (x := x) (r := r) hx
  rw [List.append_assoc, tokenize_word hw.2, List.nil_append]
  rw [show '"' :: x ++ ['"'] ++ r = '"' :: (x ++ '"' :: r) by simp]
  rw [show '"' :: x ++ '"' :: r = '"' :: (x ++ '"' :: r) by simp, tokenize_cons, if_pos rfl, if_neg (by simp),
    if_pos rfl, List.nil_append] at hq
  rw [tokenize_cons, if_pos rfl, if_neg (by simp), if_neg hw.1, hq]
  rfl

theorem tokenize_opened (hx : '"' ∉ x) : tokenize U [] false ('"' :: x) = ['"' :: x] := by
  have h : tokenize U ['"'] true (x ++ []) = tokenize U (['"'] ++ x) true [] := tokenize_inside hx
  rw [List.append_nil] at h
  rw [tokenize_cons, if_pos rfl, if_neg (by simp), if_pos rfl, List.nil_append, h]
  rfl

theorem tokenize_join {r : Text} : ∀ {ps : List (Text × List Text)}, (∀ p ∈ ps, Reads U p.1 p.2) →
    tokenize U [] false (Scan.join ' ' (ps.map Prod.fst ++ if r = [] then [] else [r])) =
      ps.flatMap Prod.snd ++ tokenize U [] false r
  | [], _ => by
    by_cases hr : r = []
    · rw [hr]
      rfl
    · rw [if_neg hr]
      rfl
  | p :: ps, h => by
    have hp := h p List.mem_cons_self
    have ih := tokenize_join (r := r) fun q hq => h q (List.mem_cons_of_mem _ hq)
    by_cases hrest : ps.map Prod.fst ++ (if r = [] then [] else [r]) = []
    · obtain ⟨hps, hr⟩ := List.append_eq_nil_iff.mp hrest
      rw [List.map_eq_nil_iff] at hps
      have hnil : r = [] := by
        by_contra hr'
        rw [if_neg hr'] at hr
        cases hr
      subst hps hnil
      have := hp [] (by simp)
      simpa [Scan.join] using this
    · rw [List.map_cons, List.cons_append, Scan.join_cons hrest, hp _ (by rintro c ⟨⟩; exact U.space),
        tokenize_space U.space, ih, List.flatMap_cons, List.append_assoc]

end Tokens

/-! ### Filters -/

section Filters

variable {U : CharTable}

def spelledFields : List Text := filterableFields ++ refusedFields ++ ["type".toList]

theorem spelledFields_letters : ∀ field ∈ spelledFields, field ≠ [] ∧ (∀ c ∈ field, c.isLower = true ∨ c = '_') ∧
    field.filter (· ≠ '_') ≠ [] ∧ field ≠ "tag".toList ∧
      (canonical field ∈ filterableFields ∨ canonical field ∈ refusedFields) := by
  decide +kernel

theorem lower_mem {word : Text} (h : isFilterField U word = true) :
    (if U.lower word = "tag".toList then "tags".toList else U.lower word) ∈ spelledFields := by
  unfold isFilterField canonical at h
  generalize U.lower word = low at h ⊢
  dsimp only at h
  by_cases htag : low = "tag".toList
  · rw [if_pos htag]
    decide +kernel
  · rw [if_neg htag]
    by_cases htype : low = "type".toList
    · rw [htype]
      decide +kernel
    · have hnone : fieldAliases.lookup low = none := by
        rw [List.lookup_eq_none_iff]
        intro e he
        rcases List.mem_cons.mp he with rfl | he
        · exact bne_iff_ne.mpr htag
        · rw [List.mem_singleton.mp he]
          exact bne_iff_ne.mpr htype
      rw [hnone, Option.getD_none, Bool.or_eq_true, decide_eq_true_eq, decide_eq_true_eq] at h
      unfold spelledFields
      rcases h with h | h
      · exact List.mem_append_left _ (List.mem_append_left _ h)
      · exact List.mem_append_left _ (List.mem_append_right _ h)

/-- The sign of a negated filter. -/
def negText (negated : Bool) : Text := if negated then ['!'] else []

theorem split_colon (h : ':' ∈ s) :
    s = s.takeWhile (· ≠ ':') ++ ':' :: (s.dropWhile (· ≠ ':')).tail := by
  have hne : s.dropWhile (· ≠ ':') ≠ [] := by
    intro hnil
    have := List.dropWhile_eq_nil_iff.mp hnil ':' h
    simp at this
  obtain ⟨c, r, hcr⟩ := List.exists_cons_of_ne_nil hne
  have hc : c = ':' := by
    have := List.head?_dropWhile_not (· ≠ ':') s
    rw [hcr] at this
    simpa using this
  conv_lhs => rw [← List.takeWhile_append_dropWhile (p := (· ≠ ':')) (l := s), hcr, hc]
  rw [hcr, List.tail_cons]

theorem splitField_some {negated : Bool} (h : splitField U token = some (negated, field, rest)) :
    field ∈ spelledFields ∧ ∃ raw, token = negText negated ++ raw ++ ':' :: rest := by
  unfold splitField at h
  dsimp only at h
  have hshape : token = negText (decide (token.head? = some '!')) ++
      (if decide (token.head? = some '!') = true then token.tail else token) := by
    cases token with
    | nil => rfl
    | cons c token =>
      by_cases hc : c = '!'
      · simp [hc, negText]
      · simp [hc, negText]
  generalize (if decide (token.head? = some '!') = true then token.tail else token) = body at h hshape
  by_cases hcolon : ':' ∉ body
  · rw [if_pos hcolon] at h
    cases h
  rw [if_neg hcolon] at h
  by_cases hletters : (decide (body.takeWhile (· ≠ ':') = []) ||
      !(decide ((body.takeWhile (· ≠ ':')).filter (· ≠ '_') ≠ []) &&
        ((body.takeWhile (· ≠ ':')).filter (· ≠ '_')).all U.isAlnum)) = true
  · rw [if_pos hletters] at h
    cases h
  rw [if_neg hletters] at h
  by_cases hknown : (!isFilterField U (body.takeWhile (· ≠ ':'))) = true
  · rw [if_pos hknown] at h
    cases h
  rw [if_neg hknown] at h
  obtain ⟨hneg, hfield, hrest⟩ : _ ∧ _ ∧ _ := by simpa only [Option.some.injEq, Prod.mk.injEq] using h
  refine ⟨hfield ▸ lower_mem (by simpa using hknown), body.takeWhile (· ≠ ':'), ?_⟩
  rw [← hneg, ← hrest, List.append_assoc, ← split_colon (not_not.mp hcolon)]
  exact hshape

theorem splitField_spelled (negated : Bool) (h : field ∈ spelledFields) :
    splitField U (negText negated ++ field ++ ':' :: rest) = some (negated, field, rest) := by
  obtain ⟨hne, hchars, hletters, htag, hknown⟩ := spelledFields_letters field h
  obtain ⟨c, field', hcf⟩ := List.exists_cons_of_ne_nil hne
  have hnot : ∀ d : Char, d.isLower = false → d ≠ '_' → d ∉ field := by
    intro d hlow hund hd
    rcases hchars d hd with h | h
    · rw [hlow] at h
      cases h
    · exact hund h
  have hbang : c ≠ '!' := by
    rintro rfl
    exact hnot '!' (by decide) (by decide) (by simp [hcf])
  have hhead : decide ((negText negated ++ field ++ ':' :: rest).head? = some '!') = negated := by
    cases negated with
    | true => rfl
    | false => simp [negText, hcf, hbang]
  have hbody : (if negated = true then (negText negated ++ field ++ ':' :: rest).tail
      else negText negated ++ field ++ ':' :: rest) = field ++ ':' :: rest := by
    cases negated with
    | true => rfl
    | false => rfl
  have hsplit := takeWhile_run (p := (· ≠ ':')) (n := field) (r := ':' :: rest)
    (by
      intro d hd
      rw [decide_eq_true_eq]
      rintro rfl
      exact hnot ':' (by decide) (by decide) hd)
    (by rintro d ⟨⟩; decide)
  unfold splitField
  dsimp only
  rw [hhead, hbody, if_neg (by simp), hsplit.1, hsplit.2, if_neg, if_neg, U.lower_ascii field hchars, if_neg htag]
  · rfl
  · unfold isFilterField
    dsimp only
    rw [U.lower_ascii field hchars]
    simpa [or_iff_not_imp_left] using hknown
  · rw [Bool.or_eq_true, decide_eq_true_eq, not_or]
    refine ⟨hne, ?_⟩
    rw [Bool.not_eq_true', Bool.not_eq_false, Bool.and_eq_true, decide_eq_true_eq, List.all_eq_true]
    refine ⟨hletters, fun d hd => ?_⟩
    obtain ⟨hd, hund⟩ := List.mem_filter.mp hd
    rcases hchars d hd with h | h
    · exact U.letters d h
    · rw [h] at hund
      simp at hund

theorem operatorOf_spec {value : Text} {op : FieldOperator} (h : operatorOf rest next = (op, value, consumed)) :
    (consumed = false ∧ rest = op.mark ++ value ∧ (op = .equals → ∀ c ∈ value.head?, c ∉ ['~', '=', '>', '<'])) ∨
      (consumed = true ∧ rest = ['='] ∧ op = .exact ∧ ∃ token, next = some token ∧ quoteEnds token = true ∧
        value = inner token) := by
  unfold operatorOf at h
  split at h
  · cases h
    exact .inl ⟨rfl, rfl, nofun⟩
  · rename_i v
    by_cases hv : v = []
    · rw [if_pos hv] at h
      cases next with
      | none =>
        cases h
        exact .inl ⟨rfl, by rw [hv]; rfl, nofun⟩
      | some token =>
        dsimp only at h
        split_ifs at h with hq
        · cases h
          exact .inr ⟨rfl, by rw [hv], rfl, token, rfl, hq, rfl⟩
        · cases h
          exact .inl ⟨rfl, by rw [hv]; rfl, nofun⟩
    · rw [if_neg hv] at h
      cases h
      exact .inl ⟨rfl, rfl, nofun⟩
  · cases h
    exact .inl ⟨rfl, rfl, nofun⟩
  · cases h
    exact .inl ⟨rfl, rfl, nofun⟩
  · rename_i h1 h2 h3 h4
    cases h
    refine .inl ⟨rfl, rfl, fun _ c hc hmem => ?_⟩
    obtain ⟨v, rfl⟩ : ∃ v, rest = c :: v := List.head?_eq_some_iff.mp hc
    simp only [List.mem_cons, List.not_mem_nil, or_false] at hmem
    rcases hmem with rfl | rfl | rfl | rfl
    · exact h1 v rfl
    · exact h2 v rfl
    · exact h3 v rfl
    · exact h4 v rfl

theorem operatorOf_mark {op : FieldOperator} {value : Text} (hne : value ≠ [])
    (heq : op = .equals → ∀ c ∈ value.head?, c ∉ ['~', '=', '>', '<']) :
    operatorOf (op.mark ++ value) next = (op, value, false) := by
  cases op with
  | semantic => rfl
  | gt => rfl
  | lt => rfl
  | exact => exact if_neg hne
  | equals =>
    obtain ⟨c, v, rfl⟩ := List.exists_cons_of_ne_nil hne
    have hc := heq rfl c rfl
    simp only [List.mem_cons, List.not_mem_nil, or_false, not_or] at hc
    show operatorOf (c :: v) next = _
    unfold operatorOf
    split
    · rename_i h
      cases h
      exact absurd rfl hc.1
    · rename_i h
      cases h
      exact absurd rfl hc.2.1
    · rename_i h
      cases h
      exact absurd rfl hc.2.2.1
    · rename_i h
      cases h
      exact absurd rfl hc.2.2.2
    · rfl

theorem quoteEnds_of_not_mem (h : '"' ∉ s) : quoteEnds s = false := by
  unfold quoteEnds
  rw [Bool.and_eq_false_iff]
  left
  rw [decide_eq_false_iff_not]
  intro hhead
  exact h (List.mem_of_mem_head? hhead)

theorem inner_quoted (x : Text) : inner ('"' :: x ++ ['"']) = x := by
  unfold inner
  rw [List.cons_append, List.tail_cons, List.dropLast_concat]

theorem quoteEnds_quoted (x : Text) : quoteEnds ('"' :: x ++ ['"']) = true := by
  unfold quoteEnds
  rw [List.getLast?_concat]
  rfl

/-- The next token is between quotes, with something there. -/
def HasContent (next : Option Text) : Prop := ∃ token, next = some token ∧ quoteEnds token = true ∧ inner token ≠ []

theorem Tok.not_quoteEnds {t : Tok} (h : t.Ok U) (hc : quoteEnds t.text = true) (hne : inner t.text ≠ []) :
    ∃ x, t = .quoted x ∧ x ≠ [] := by
  cases t with
  | word w =>
    rw [show (Tok.word w).text = w from rfl, quoteEnds_of_not_mem fun hq => (h.2 _ hq).2 rfl] at hc
    cases hc
  | quoted x =>
    rw [show (Tok.quoted x).text = '"' :: x ++ ['"'] from rfl, inner_quoted] at hne
    exact ⟨x, rfl, hne⟩
  | opened x =>
    unfold quoteEnds at hc
    rw [Bool.and_eq_true, decide_eq_true_eq, decide_eq_true_eq] at hc
    cases x with
    | nil => exact absurd rfl hne
    | cons c x =>
      refine absurd (List.mem_of_getLast? (?_ : (c :: x).getLast? = some '"')) h
      have := hc.2
      rwa [show (Tok.opened (c :: x)).text = '"' :: c :: x from rfl, List.getLast?_cons_cons] at this

theorem filterAt_next {next' : Option Text} (h : filterAt U token next = none) (hnext : ¬HasContent next') :
    filterAt U token next' = none := by
  unfold filterAt at h ⊢
  split_ifs at h ⊢ with hshape
  · unfold parseFieldFilterAdvanced at h ⊢
    cases hs : splitField U token with
    | none => rfl
    | some split =>
      obtain ⟨negated, field, rest⟩ := split
      rw [hs] at h
      dsimp only at h ⊢
      by_cases hrest : rest = ['=']
      · subst hrest
        have hval : (operatorOf ['='] next').2.1 = [] := by
          cases next' with
          | none => rfl
          | some token' =>
            show (if quoteEnds token' then _ else _ : FieldOperator × Text × Bool).2.1 = _
            split_ifs with hq
            · exact not_not.mp fun hne => hnext ⟨token', rfl, hq, hne⟩
            · rfl
        rw [hval]
        rfl
      · have hsame : operatorOf rest next' = operatorOf rest next := by
          unfold operatorOf
          split
          · rfl
          · rename_i v
            have hv : v ≠ [] := by
              rintro rfl
              exact hrest rfl
            rw [if_neg hv, if_neg hv]
          · rfl
          · rfl
          · rfl
        rw [hsame]
        exact h
  · rfl

/-- A filter as the second pass records it. -/
structure Canon (U : CharTable) (f : FieldFilter) : Prop where
  field : f.field ∈ spelledFields
  value : f.value ≠ []
  quote : '"' ∉ f.value
  run : f.operator ≠ .exact → ∀ c ∈ f.value, U.isSpace c = false
  equals : f.operator = .equals → ∀ c ∈ f.value.head?, c ∉ ['~', '=', '>', '<']

/-- **What a filter is read from.** -/
theorem filterAt_some {f : FieldFilter} (hw : (Tok.word w).Ok U)
    (hnext : ∀ token ∈ next, ∃ t : Tok, t.Ok U ∧ t.text = token) (h : filterAt U w next = some (f, consumed)) :
    Canon U f ∧ ((consumed = false ∧ f.operator.mark ++ f.value <:+ w) ∨
      (consumed = true ∧ f.operator = .exact ∧ next = some (Tok.quoted f.value).text)) := by
  unfold filterAt at h
  split_ifs at h with hshape
  unfold parseFieldFilterAdvanced at h
  cases hs : splitField U w with
  | none =>
    rw [hs] at h
    cases h
  | some split =>
    obtain ⟨negated, field, rest⟩ := split
    rw [hs] at h
    dsimp only at h
    obtain ⟨hfield, raw, hshape⟩ := splitField_some hs
    rcases hop : operatorOf rest next with ⟨op, value, k⟩
    rw [hop] at h
    dsimp only at h
    rcases operatorOf_spec hop with ⟨rfl, hrest, heq⟩ | ⟨rfl, hrest, rfl, token, rfl, hends, rfl⟩
    · -- the value is the end of the token, which has no quote
      have hsuf : op.mark ++ value <:+ w := ⟨negText negated ++ raw ++ [':'], by rw [hshape, hrest]; simp⟩
      have hchars : ∀ c ∈ value, U.isSpace c = false ∧ c ≠ '"' := fun c hc =>
        hw.2 c (hsuf.subset (List.mem_append_right _ hc))
      have hquote : '"' ∉ value := fun hq => (hchars _ hq).2 rfl
      simp only [quoteEnds_of_not_mem hquote, Bool.false_eq_true, if_false] at h
      split_ifs at h with hne
      cases h
      exact ⟨⟨hfield, hne, hquote, fun _ c hc => (hchars c hc).1, heq⟩, .inl ⟨rfl, hsuf⟩⟩
    · -- the value is between the quotes of the next token
      obtain ⟨t, htok, rfl⟩ := hnext token rfl
      by_cases hne : inner t.text = []
      · rw [hne] at h
        cases h
      · obtain ⟨x, rfl, hx⟩ := Tok.not_quoteEnds htok hends hne
        have hinner : inner (Tok.quoted x).text = x := inner_quoted x
        simp only [hinner, quoteEnds_of_not_mem htok, Bool.false_eq_true, if_false, if_neg hx] at h
        cases h
        exact ⟨⟨hfield, hx, htok, fun hno => absurd rfl hno, nofun⟩, .inr ⟨rfl, rfl, rfl⟩⟩

def FieldFilter.toks (f : FieldFilter) : List Text :=
  if f.operator = .exact then [negText f.negated ++ f.field ++ [':', '='], '"' :: f.value ++ ['"']] else [f.str]

theorem filterAt_eq {negated : Bool} (h : field ∈ spelledFields) :
    filterAt U (negText negated ++ field ++ ':' :: rest) next =
      (if (if quoteEnds (operatorOf rest next).2.1 then inner (operatorOf rest next).2.1
          else (operatorOf rest next).2.1) = [] then none
        else some (⟨field, if quoteEnds (operatorOf rest next).2.1 then inner (operatorOf rest next).2.1
          else (operatorOf rest next).2.1, (operatorOf rest next).1, negated⟩, (operatorOf rest next).2.2)) := by
  have hhead : (negText negated ++ field ++ ':' :: rest).head? ≠ some '"' := by
    obtain ⟨hne, hchars, -⟩ := spelledFields_letters field h
    cases negated with
    | true => simp [negText]
    | false =>
      obtain ⟨c, field', rfl⟩ := List.exists_cons_of_ne_nil hne
      have hc := hchars c List.mem_cons_self
      simp only [negText, Bool.false_eq_true, if_false, List.nil_append, List.cons_append, List.head?_cons, ne_eq,
        Option.some.injEq]
      rintro rfl
      revert hc
      decide
  have hlooks : (decide (':' ∈ negText negated ++ field ++ ':' :: rest) &&
      !decide ((negText negated ++ field ++ ':' :: rest).head? = some '"')) = true := by
    rw [Bool.and_eq_true, Bool.not_eq_true', decide_eq_true_eq, decide_eq_false_iff_not]
    exact ⟨by simp, hhead⟩
  unfold filterAt parseFieldFilterAdvanced
  rw [if_pos hlooks, splitField_spelled negated h]

theorem filterAt_plain {f : FieldFilter} (h : Canon U f) (hop : f.operator ≠ .exact) (next : Option Text) :
    filterAt U f.str next = some (f, false) := by
  have hstr : f.str = negText f.negated ++ f.field ++ ':' :: (f.operator.mark ++ f.value) := by
    unfold FieldFilter.str negText
    dsimp only
    rw [if_neg hop]
    simp
  rw [hstr, filterAt_eq h.field, operatorOf_mark h.value h.equals]
  simp only [quoteEnds_of_not_mem h.quote, Bool.false_eq_true, if_false, if_neg h.value]

theorem filterAt_exact {f : FieldFilter} (h : Canon U f) (hop : f.operator = .exact) :
    filterAt U (negText f.negated ++ f.field ++ [':', '=']) (some ('"' :: f.value ++ ['"'])) = some (f, true) := by
  have hread : operatorOf ['='] (some ('"' :: f.value ++ ['"'])) = (.exact, f.value, true) := by
    show (if quoteEnds ('"' :: f.value ++ ['"']) then _ else _ : FieldOperator × Text × Bool) = _
    rw [if_pos (quoteEnds_quoted _), inner_quoted]
  rw [filterAt_eq h.field, hread]
  simp only [quoteEnds_of_not_mem h.quote, Bool.false_eq_true, if_false, if_neg h.value, ← hop]

end Filters

/-! ### The second pass -/

section Second

variable {U : CharTable}

theorem filterAt_quote (h : token.head? = some '"') (next : Option Text) : filterAt U token next = none := by
  unfold filterAt
  rw [if_neg (by simp [h])]

theorem extractFilters_skip :
    extractFilters U true (token :: tokens) = extractFilters U false tokens := rfl

theorem extractFilters_none (h : filterAt U token tokens.head? = none) :
    extractFilters U false (token :: tokens) =
      (token :: (extractFilters U false tokens).1, (extractFilters U false tokens).2) := by
  conv_lhs => unfold extractFilters
  rw [if_neg (by simp), h]

theorem extractFilters_some {f : FieldFilter} (h : filterAt U token tokens.head? = some (f, consumed)) :
    extractFilters U false (token :: tokens) =
      ((extractFilters U consumed tokens).1, f :: (extractFilters U consumed tokens).2) := by
  conv_lhs => unfold extractFilters
  rw [if_neg (by simp), h]

/-- A token left in the text is a filter at most before a quoted text. -/
def Left (U : CharTable) (k : Tok) : Prop := ∀ next, ¬HasContent next → filterAt U k.text next = none

/-- A filter with its value where the text has it. -/
def FoundIn (U : CharTable) (ts : List Tok) (f : FieldFilter) : Prop :=
  Canon U f ∧ ∃ t ∈ ts, f.value <:+: t.text ∧ (f.operator ≠ .exact → f.operator.mark ++ f.value <:+: t.text)

theorem extractFilters_spec : ∀ (ts : List Tok) (skip : Bool), (∀ t ∈ ts, t.Ok U) →
    ∃ ks : List Tok, ks.Sublist ts ∧ (extractFilters U skip (ts.map Tok.text)).1 = ks.map Tok.text ∧
      (∀ k ∈ ks, Left U k) ∧ ∀ f ∈ (extractFilters U skip (ts.map Tok.text)).2, FoundIn U ts f
  | [], _, _ => ⟨[], List.Sublist.refl _, rfl, by simp, by rintro f ⟨⟩⟩
  | t :: ts, skip, hok => by
    obtain ⟨htok, hts⟩ := List.forall_mem_cons.mp hok
    have hwider : ∀ f, FoundIn U ts f → FoundIn U (t :: ts) f := fun f hf =>
      ⟨hf.1, hf.2.imp fun u hu => ⟨List.mem_cons_of_mem _ hu.1, hu.2⟩⟩
    cases skip with
    | true =>
      obtain ⟨ks, hsub, hleft, hks, hfs⟩ := extractFilters_spec ts false hts
      rw [List.map_cons, extractFilters_skip]
      exact ⟨ks, hsub.trans (List.sublist_cons_self _ _), hleft, hks, fun f hf => hwider f (hfs f hf)⟩
    | false =>
      rw [List.map_cons]
      cases hf : filterAt U t.text (ts.map Tok.text).head? with
      | none =>
        obtain ⟨ks, hsub, hleft, hks, hfs⟩ := extractFilters_spec ts false hts
        rw [extractFilters_none hf]
        refine ⟨t :: ks, hsub.cons_cons t, by rw [hleft, List.map_cons], ?_, fun f hf => hwider f (hfs f hf)⟩
        rw [List.forall_mem_cons]
        exact ⟨fun next hnext => filterAt_next hf hnext, hks⟩
      | some r =>
        obtain ⟨f, consumed⟩ := r
        obtain ⟨ks, hsub, hleft, hks, hfs⟩ := extractFilters_spec ts consumed hts
        rw [extractFilters_some hf]
        refine ⟨ks, hsub.trans (List.sublist_cons_self _ _), hleft, hks, ?_⟩
        rw [List.forall_mem_cons]
        refine ⟨?_, fun f hf => hwider f (hfs f hf)⟩
        have hnext : ∀ token ∈ (ts.map Tok.text).head?, ∃ u : Tok, u.Ok U ∧ u.text = token := by
          intro token htoken
          obtain ⟨u, hu, rfl⟩ := List.mem_map.mp (List.mem_of_mem_head? htoken)
          exact ⟨u, hts u hu, rfl⟩
        cases t with
        | word w =>
          obtain ⟨hcanon, hsuf | ⟨-, hop, hnextq⟩⟩ := filterAt_some htok hnext hf
          · refine ⟨hcanon, .word w, List.mem_cons_self, ?_, fun _ => hsuf.2.isInfix⟩
            exact (List.suffix_append _ _).isInfix.trans hsuf.2.isInfix
          · obtain ⟨u, hu, heq⟩ := List.mem_map.mp (List.mem_of_mem_head? hnextq)
            refine ⟨hcanon, u, List.mem_cons_of_mem _ hu, ?_, fun hno => absurd hop hno⟩
            rw [heq]
            exact ⟨['"'], ['"'], by simp [Tok.text]⟩
        | quoted x =>
          rw [filterAt_quote rfl] at hf
          cases hf
        | opened x =>
          rw [filterAt_quote rfl] at hf
          cases hf

theorem extractFilters_toks : ∀ {fs : List FieldFilter}, (∀ f ∈ fs, Canon U f) →
    extractFilters U false (fs.flatMap FieldFilter.toks) = ([], fs)
  | [], _ => rfl
  | f :: fs, h => by
    obtain ⟨hf, hfs⟩ := List.forall_mem_cons.mp h
    have ih := extractFilters_toks hfs
    rw [List.flatMap_cons]
    unfold FieldFilter.toks at ih ⊢
    by_cases hop : f.operator = .exact
    · rw [if_pos hop]
      have hat := filterAt_exact hf hop
      rw [List.cons_append, List.cons_append, List.nil_append, extractFilters_some (by exact hat), extractFilters_skip, ih]
    · rw [if_neg hop, List.singleton_append, extractFilters_some (filterAt_plain hf hop _), ih]

theorem toks_head {fs : List FieldFilter} (h : ∀ f ∈ fs, Canon U f) : ¬HasContent (fs.flatMap FieldFilter.toks).head? := by
  cases fs with
  | nil =>
    rintro ⟨token, ⟨⟩, -⟩
  | cons f fs =>
    have hf := h f List.mem_cons_self
    obtain ⟨hne, hchars, -⟩ := spelledFields_letters f.field hf.field
    obtain ⟨c, field', hcf⟩ := List.exists_cons_of_ne_nil hne
    have hc := hchars c (by simp [hcf])
    have hquote : c ≠ '"' := by
      rintro rfl
      revert hc
      decide
    have hnot : ∀ rest : Text, (negText f.negated ++ f.field ++ rest).head? ≠ some '"' := by
      intro rest
      cases f.negated with
      | true => simp [negText]
      | false => simp [negText, hcf, hquote]
    rintro ⟨token, htoken, hends, -⟩
    have hhead : token.head? ≠ some '"' := by
      rw [List.flatMap_cons] at htoken
      unfold FieldFilter.toks at htoken
      by_cases hop : f.operator = .exact
      · rw [if_pos hop] at htoken
        cases htoken
        exact hnot _
      · rw [if_neg hop] at htoken
        cases htoken
        unfold FieldFilter.str
        dsimp only
        rw [if_neg hop, List.append_assoc, List.append_assoc]
        have := hnot (':' :: f.operator.mark ++ f.value)
        rwa [List.append_assoc] at this
    unfold quoteEnds at hends
    rw [Bool.and_eq_true, decide_eq_true_eq] at hends
    exact hhead hends.1

theorem extractFilters_quotes {rest : List Text} : ∀ {qs : List Text}, (∀ s ∈ qs, s.head? = some '"') →
    extractFilters U false (qs ++ rest) = (qs ++ (extractFilters U false rest).1, (extractFilters U false rest).2)
  | [], _ => rfl
  | s :: qs, h => by
    obtain ⟨hs, hqs⟩ := List.forall_mem_cons.mp h
    rw [List.cons_append, extractFilters_none (filterAt_quote hs _), extractFilters_quotes hqs]
    rfl

theorem extractFilters_left {rest : List Text} (hrest : ¬HasContent rest.head?) : ∀ {ks : List Tok},
    (∀ k ∈ ks, Left U k ∧ ¬HasContent (some k.text)) →
    extractFilters U false (ks.map Tok.text ++ rest) =
      (ks.map Tok.text ++ (extractFilters U false rest).1, (extractFilters U false rest).2)
  | [], _ => rfl
  | k :: ks, h => by
    obtain ⟨hk, hks⟩ := List.forall_mem_cons.mp h
    have hnext : ¬HasContent (ks.map Tok.text ++ rest).head? := by
      cases ks with
      | nil => exact hrest
      | cons k' ks => exact (hks k' List.mem_cons_self).2
    rw [List.map_cons, List.cons_append, extractFilters_none (hk.1 _ hnext), extractFilters_left hrest hks]
    rfl

end Second

end Query

end Mantle
