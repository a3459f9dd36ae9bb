import Mantle.Search.Spelling

/-!
# Mantle.Search.Appended — a query with more written after it (`search/query_parser.py`)

A word written after a query with a modifier is one more term.  A phrase is one more phrase, where the query's quotes
are paired, and its modifier is dropped.
-/

namespace Mantle

namespace Query

variable {ks : List Tok} {q token w : Text} {t : Term}

variable {post s u v x : Text}

/-! ### Controls -/

section Appended

variable {U : CharTable}

theorem startsControl_head (h : StartsControl U s) : s.head? = some '@' := by
  obtain ⟨n, c, b, rfl, -⟩ := h
  rfl

theorem controlAt_before (hv : ∀ c ∈ v.head?, U.isSpace c = true) (hs : s ≠ []) :
    controlAt U (s ++ v) = controlAt U s := by
  cases h : controlAt U s with
  | some r =>
    obtain ⟨m, k⟩ := r
    obtain ⟨r, rfl, rfl, hn, hw, hne, hrun, hr⟩ := controlAt_some h
    rw [List.append_assoc]
    refine controlAt_run hn hw hne hrun ?_
    cases r with
    | nil => exact hv
    | cons c r => exact hr
  | none =>
    by_contra hsome
    exact (startsControl_iff.mp ((startsControl_iff.mpr hsome).of_append hv)) h

theorem findControls_none (h : '@' ∉ v) : findControls U v = [] := by
  have hskip : findControls U (v ++ []) = findControls U [] := by
    refine Scan.findAll_append fun y hy hsuf => ?_
    by_contra hne
    rw [List.append_nil] at hne
    exact h (hsuf.subset (List.mem_of_mem_head? (startsControl_head (startsControl_iff.mpr hne))))
  rw [List.append_nil] at hskip
  exact hskip

theorem findControls_before (hu : '@' ∉ u) : findControls U (q ++ ' ' :: u) = findControls U q := by
  have hnone : findControls U (' ' :: u) = [] := findControls_none (by simpa using hu)
  refine (Scan.findAll_before (fun s hs => controlAt_before (by rintro c ⟨⟩; exact U.space) hs) ?_ q 0
    (Nat.zero_le _)).trans ((congrArg (findControls U q ++ ·) hnone).trans (List.append_nil _))
  intro s m n h
  obtain ⟨r, rfl, rfl, -⟩ := controlAt_some h
  rw [List.length_append]
  exact Nat.le_add_right _ _

theorem controlStr_space {m : Text × Text} (hname : ∀ d ∈ m.1, isWord U d = true) (hvalue : ∀ d ∈ m.2, U.isSpace d = false) :
    ' ' ∉ controlStr m := by
  unfold controlStr
  simp only [List.cons_append, List.mem_cons, List.mem_append, not_or]
  refine ⟨by decide, fun h => ?_, by decide, fun h => ?_⟩
  · have := isWord_space (hname _ h)
    rw [U.space] at this
    cases this
  · have := hvalue _ h
    rw [U.space] at this
    cases this

theorem replace_controls_before (hu : '@' ∉ u) : ∀ (ms : List (Text × Text)) (r : Text),
    (∀ m ∈ ms, ' ' ∉ controlStr m) →
    ms.foldl (fun remaining m => Scan.replaceFirst (controlStr m) remaining) (r ++ ' ' :: u) =
      ms.foldl (fun remaining m => Scan.replaceFirst (controlStr m) remaining) r ++ ' ' :: u
  | [], _, _ => rfl
  | m :: ms, r, h => by
    obtain ⟨hm, hms⟩ := List.forall_mem_cons.mp h
    rw [List.foldl_cons, List.foldl_cons, Scan.replaceFirst_before, replace_controls_before hu ms _ hms]
    · -- an occurrence that reaches what follows has the space
      intro s _ hpre
      by_contra hnot
      obtain ⟨t, hspan⟩ := (List.prefix_or_prefix_of_prefix hpre (List.prefix_append s _)).resolve_left hnot
      rw [← hspan, List.prefix_append_right_inj] at hpre
      cases t with
      | nil => exact hnot (by rw [← hspan, List.append_nil])
      | cons c t =>
        obtain ⟨rfl, -⟩ := List.cons_prefix_cons.mp hpre
        exact hm (by rw [← hspan]; simp)
    · rintro y hsuf ⟨t, rfl⟩
      have hmem : '@' ∈ ' ' :: u := hsuf.subset (by simp [controlStr])
      exact hu (by simpa using hmem)

theorem extractControls_before (hne : u ≠ []) (hu : '@' ∉ u) (hhead : ∀ d ∈ u.head?, U.isSpace d = false)
    (hlast : ∀ d ∈ u.getLast?, U.isSpace d = false) :
    ∃ post, (∀ d ∈ post, U.isSpace d = true) ∧ (extractControls U (q ++ ' ' :: u)).1 =
      if (extractControls U q).1 = [] then u else (extractControls U q).1 ++ post ++ ' ' :: u := by
  have hfold := replace_controls_before hu (findControls U q) q fun m hm => by
    obtain ⟨-, hname, -, hvalue⟩ := findControls_spec _ _ le_rfl hm
    exact controlStr_space hname hvalue
  unfold extractControls
  dsimp only
  rw [findControls_before hu, hfold]
  exact Scan.strip_before U.space hhead hlast hne

/-! ### Tokens -/

/-- **A text ends between two tokens, or in an open quote** that takes what is written after it. -/
theorem tokenize_ends : ∀ (z cur : Text) (inQ : Bool), (inQ = true → ∃ x, cur = '"' :: x ∧ '"' ∉ x) →
    (∀ v : Text, (∀ c ∈ v.head?, U.isSpace c = true) →
      tokenize U cur inQ (z ++ v) = tokenize U cur inQ z ++ tokenize U [] false v) ∨
    ∃ init x, tokenize U cur inQ z = init ++ ['"' :: x] ∧ '"' ∉ x ∧
      ∀ v : Text, '"' ∉ v → tokenize U cur inQ (z ++ v) = init ++ ['"' :: (x ++ v)]
  | [], cur, inQ, hopen => by
    cases inQ with
    | true =>
      obtain ⟨x, rfl, hx⟩ := hopen rfl
      refine .inr ⟨[], x, rfl, hx, fun v hv => ?_⟩
      have hin : tokenize U ('"' :: x) true (v ++ []) = tokenize U ('"' :: x ++ v) true [] := tokenize_inside hv
      rw [List.append_nil] at hin
      rw [List.nil_append, hin]
      rfl
    | false =>
      refine .inl fun v hv => ?_
      by_cases hcur : cur = []
      · subst hcur
        rfl
      · rw [List.nil_append, tokenize_close hcur hv]
        unfold tokenize
        rw [if_neg hcur]
        rfl
  | c :: z, cur, inQ, hopen => by
    simp only [List.cons_append, tokenize_cons]
    have hpush : ∀ (pre : List Text) (cur : Text) (inQ : Bool), (inQ = true → ∃ x, cur = '"' :: x ∧ '"' ∉ x) →
        (∀ v : Text, (∀ c ∈ v.head?, U.isSpace c = true) →
          pre ++ tokenize U cur inQ (z ++ v) = pre ++ tokenize U cur inQ z ++ tokenize U [] false v) ∨
        ∃ init x, pre ++ tokenize U cur inQ z = init ++ ['"' :: x] ∧ '"' ∉ x ∧
          ∀ v : Text, '"' ∉ v → pre ++ tokenize U cur inQ (z ++ v) = init ++ ['"' :: (x ++ v)] := by
      intro pre cur inQ h
      rcases tokenize_ends z cur inQ h with hclosed | ⟨init, x, heq, hx, hv⟩
      · exact .inl fun v hv => by rw [hclosed v hv, List.append_assoc]
      · exact .inr ⟨pre ++ init, x, by rw [heq, List.append_assoc], hx, fun v hq => by rw [hv v hq, List.append_assoc]⟩
    by_cases hc : c = '"'
    · subst hc
      simp only [if_true]
      cases inQ with
      | true =>
        have := hpush [cur ++ ['"']] [] false (by simp)
        simpa using this
      | false =>
        have := hpush (if cur = [] then [] else [cur]) ['"'] true (fun _ => ⟨[], rfl, by simp⟩)
        simpa using this
    · simp only [if_neg hc]
      by_cases hs : (U.isSpace c && !inQ) = true
      · simp only [if_pos hs]
        exact hpush (if cur = [] then [] else [cur]) [] false (by simp)
      · simp only [if_neg hs]
        have := hpush [] (cur ++ [c]) inQ fun hin => by
          obtain ⟨x, rfl, hx⟩ := hopen hin
          exact ⟨x ++ [c], by simp, by simp [hx, Ne.symm hc]⟩
        simpa using this

/-! ### Filters -/

theorem filterAt_next_none {next : Option Text} (h : ¬HasContent next) :
    filterAt U token next = filterAt U token none := by
  unfold filterAt parseFieldFilterAdvanced
  split_ifs with hshape
  · cases splitField U token with
    | none => rfl
    | some r =>
      obtain ⟨negated, field, rest⟩ := r
      dsimp only
      have hop : operatorOf rest next = operatorOf rest none ∨
          ((operatorOf rest next).2.1 = [] ∧ (operatorOf rest none).2.1 = []) := by
        unfold operatorOf
        split
        · exact .inl rfl
        · split_ifs with hvalue
          · cases next with
            | none => exact .inl rfl
            | some t =>
              dsimp only
              split_ifs with hq
              · refine .inr ⟨?_, rfl⟩
                by_contra hinner
                exact h ⟨t, rfl, hq, hinner⟩
              · exact .inl rfl
          · exact .inl rfl
        · exact .inl rfl
        · exact .inl rfl
        · exact .inl rfl
      rcases hop with hop | ⟨hsome, hnone⟩
      · rw [hop]
      · rw [hsome, hnone]
        rfl
  · rfl

theorem filterAt_taken {f : FieldFilter} {consumed : Bool} (h : filterAt U token none = some (f, consumed)) :
    consumed = false := by
  unfold filterAt parseFieldFilterAdvanced at h
  split_ifs at h
  cases hs : splitField U token with
  | none =>
    rw [hs] at h
    cases h
  | some r =>
    obtain ⟨negated, field, rest⟩ := r
    rw [hs] at h
    dsimp only at h
    cases hop : operatorOf rest none with
    | mk op r =>
      obtain ⟨value, taken⟩ := r
      rw [hop] at h
      dsimp only at h
      rcases operatorOf_spec hop with ⟨hfalse, -⟩ | ⟨-, -, -, token, hnext, -⟩
      · split_ifs at h
        · cases h
          exact hfalse
        · cases h
          exact hfalse
      · cases hnext

theorem extractFilters_before {V : List Text} (hV : ∀ t ∈ V, ∀ next, filterAt U t next = none) (hhead : ¬HasContent V.head?) :
    ∀ (T : List Text) (skip : Bool), (skip = true → T ≠ []) →
      extractFilters U skip (T ++ V) = ((extractFilters U skip T).1 ++ V, (extractFilters U skip T).2)
  | [], skip, h => by
    cases skip with
    | true => exact absurd rfl (h rfl)
    | false =>
      rw [List.nil_append]
      clear hhead h
      induction V with
      | nil => rfl
      | cons t V ih =>
        obtain ⟨ht, hV⟩ := List.forall_mem_cons.mp hV
        rw [extractFilters_none (ht _), ih hV]
        rfl
  | t :: T, skip, _ => by
    cases skip with
    | true =>
      rw [List.cons_append, extractFilters_skip, extractFilters_skip]
      exact extractFilters_before hV hhead T false (by simp)
    | false =>
      have hnext : filterAt U t (T ++ V).head? = filterAt U t T.head? := by
        cases T with
        | nil => exact filterAt_next_none hhead
        | cons t' T => rfl
      rw [List.cons_append]
      cases hf : filterAt U t T.head? with
      | none =>
        rw [extractFilters_none hf, extractFilters_none (hnext.trans hf), extractFilters_before hV hhead T false (by simp)]
        rfl
      | some r =>
        obtain ⟨f, consumed⟩ := r
        have hskip : consumed = true → T ≠ [] := by
          rintro rfl rfl
          have := filterAt_taken hf
          cases this
        rw [extractFilters_some hf, extractFilters_some (hnext.trans hf), extractFilters_before hV hhead T consumed hskip]

end Appended

/-! ### Terms -/

section AppendedTerms

variable {U : CharTable} {v : Text}

theorem quotedAt_some (h : quotedAt s = some x) : ∃ r, s = '"' :: x ++ '"' :: r ∧ x ≠ [] ∧ '"' ∉ x := by
  unfold quotedAt at h
  split at h
  · rename_i s
    dsimp only at h
    split_ifs at h with hc
    cases h
    rw [Bool.or_eq_true, decide_eq_true_eq, decide_eq_true_eq, not_or] at hc
    obtain ⟨c, r, hcr⟩ := List.exists_cons_of_ne_nil hc.2
    have hquote : c = '"' := by
      have hnot := List.head?_dropWhile_not (fun c : Char => decide (c ≠ '"')) s
      rw [hcr] at hnot
      have hnot : decide (c ≠ '"') = false := hnot
      simpa using hnot
    refine ⟨r, ?_, hc.1, fun hmem => by simpa using List.mem_takeWhile_imp hmem⟩
    have hsplit := List.takeWhile_append_dropWhile (p := fun c : Char => decide (c ≠ '"')) (l := s)
    rw [hcr, hquote] at hsplit
    rw [List.cons_append, hsplit]
  · cases h

theorem quotedAt_before (hv : '"' ∉ v) (s : Text) : quotedAt (s ++ v) = quotedAt s := by
  have hempty : quotedAt v = none := by
    cases v with
    | nil => rfl
    | cons c v => exact quotedAt_ne fun hc => hv (by rw [hc]; exact List.mem_cons_self)
  cases s with
  | nil => exact hempty
  | cons c s =>
    by_cases hc : c = '"'
    · subst hc
      rw [List.cons_append]
      by_cases hs : '"' ∈ s
      · obtain ⟨x, r, rfl, hx⟩ := List.eq_append_cons_of_mem hs
        cases x with
        | nil => rw [quotedAt_open (.inr rfl), quotedAt_open (.inr rfl)]
        | cons d x =>
          have hshort := quotedAt_phrase (r := r) (x := d :: x) (by simp) hx
          have hlong := quotedAt_phrase (r := r ++ v) (x := d :: x) (by simp) hx
          rw [List.append_assoc]
          rw [List.cons_append] at hshort hlong
          rw [hshort]
          exact hlong
      · rw [quotedAt_open (.inl hs), quotedAt_open (.inl (by simp [hs, hv]))]
    · rw [List.cons_append, quotedAt_ne hc, quotedAt_ne hc]

theorem phraseAt_before (hv : '"' ∉ v) (hs : s ≠ []) : phraseAt (s ++ v) = phraseAt s := by
  obtain ⟨c, s, rfl⟩ := List.exists_cons_of_ne_nil hs
  rw [List.cons_append, phraseAt_cons, phraseAt_cons, quotedAt_before hv, ← List.cons_append, quotedAt_before hv]

theorem phraseAt_some {n : ℕ} (h : phraseAt s = some (t, n)) : n ≤ s.length ∧ t.isPhrase = true := by
  cases s with
  | nil => cases h
  | cons c s =>
    rw [phraseAt_cons] at h
    split_ifs at h with hc
    · obtain ⟨x, hx, heq⟩ := Option.map_eq_some_iff.mp h
      cases heq
      obtain ⟨r, rfl, -⟩ := quotedAt_some hx
      simp
    · obtain ⟨x, hx, heq⟩ := Option.map_eq_some_iff.mp h
      cases heq
      obtain ⟨r, hr, -⟩ := quotedAt_some hx
      rw [hr]
      simp

theorem str_phrase (h : t.isPhrase = true) : t.str = t.modifier.mark ++ '"' :: t.text ++ ['"'] := by
  unfold Term.str
  rw [if_pos h]

theorem replace_phrases_before (hv : '"' ∉ v) : ∀ (ts : List Term) (r : Text), (∀ t ∈ ts, t.isPhrase = true) →
    ts.foldl (fun remaining t => Scan.replaceFirst t.str remaining) (r ++ v) =
      ts.foldl (fun remaining t => Scan.replaceFirst t.str remaining) r ++ v
  | [], _, _ => rfl
  | t :: ts, r, h => by
    obtain ⟨ht, hts⟩ := List.forall_mem_cons.mp h
    rw [List.foldl_cons, List.foldl_cons, Scan.replaceFirst_before, replace_phrases_before hv ts _ hts]
    · -- an occurrence that reaches what follows has its last quote there
      intro s _ hpre
      by_contra hnot
      obtain ⟨z, hspan⟩ := (List.prefix_or_prefix_of_prefix hpre (List.prefix_append s _)).resolve_left hnot
      rw [← hspan, List.prefix_append_right_inj] at hpre
      rcases List.eq_nil_or_concat z with rfl | ⟨z, d, rfl⟩
      · exact hnot (by rw [← hspan, List.append_nil])
      · rw [str_phrase ht, List.concat_eq_append, ← List.append_assoc] at hspan
        have hd : d = '"' := by
          have := (List.append_inj' hspan rfl).2
          simpa using this
        exact hv (hpre.subset (by simp [hd]))
    · rintro y hsuf hpre
      exact hv (hsuf.subset (hpre.subset (by rw [str_phrase ht]; simp)))

/-- **What the third pass finds when more is written after a text.** -/
theorem extractTerms_before (post : Text) (hpost : ∀ c ∈ post, U.isSpace c = true) (hu : '"' ∉ u) (J : Text) :
    (extractTerms U (J ++ (post ++ ' ' :: u))).1 =
      (extractTerms U J).1 ++ ((Scan.words U.isSpace [] u).filterMap termOf).map Prod.fst := by
  have hv : '"' ∉ post ++ ' ' :: u := by
    simp only [List.mem_append, List.mem_cons, not_or]
    refine ⟨fun h => ?_, by decide, hu⟩
    have := hpost _ h
    rw [mark_space (by decide)] at this
    cases this
  have hfind : Scan.findAll phraseAt 0 (J ++ (post ++ ' ' :: u)) = Scan.findAll phraseAt 0 J := by
    rw [Scan.findAll_before (fun s hs => phraseAt_before hv hs) (fun s b n h => (phraseAt_some h).1) J 0 (Nat.zero_le _),
      findAll_noQuote hv, List.append_nil]
  have hphrases : ∀ t ∈ Scan.findAll phraseAt 0 J, t.isPhrase = true := by
    intro t ht
    obtain ⟨s, n, h⟩ := Scan.mem_findAll ht
    exact (phraseAt_some h).2
  unfold extractTerms
  dsimp only
  rw [hfind, replace_phrases_before hv _ _ hphrases, ← List.append_assoc, Scan.words_append_sep U.space,
    Scan.words_blank hpost, List.filterMap_append, List.map_append, List.append_assoc]

end AppendedTerms

/-! ### The query with a word or a phrase added -/

/-- What is added to a query: a word, or a phrase in quotes. -/
inductive Operand
  | word (w : Text)
  | phrase (x : Text)

namespace Operand

def text : Operand → Text
  | word w => w
  | phrase x => x

def isPhrase : Operand → Bool
  | word _ => false
  | phrase _ => true

/-- How it is written. -/
def str : Operand → Text
  | word w => w
  | phrase x => '"' :: x ++ ['"']

/-- A word has no space, no quote, no `@` and no colon; a phrase is something with no quote and no `@`. -/
def Ok (U : CharTable) : Operand → Prop
  | word w => w ≠ [] ∧ ∀ c ∈ w, U.isSpace c = false ∧ c ∉ ['"', '@', ':']
  | phrase x => x ≠ [] ∧ '"' ∉ x ∧ '@' ∉ x

end Operand

def followedBy (q : Text) (m : Char) (t : Operand) : Text := q ++ ' ' :: m :: t.str

/-- No quote of the query is left open, and no two of its quotes have nothing between. -/
def Paired (U : CharTable) (q : Text) : Prop := ∀ s ∈ tokensOf U q, ¬LeftOpen s ∧ s ≠ ['"', '"']

section Added

variable {U : CharTable} {q : Text} {t : Operand} {m : Char}

theorem stripped_ne (h : (parse U q).terms ≠ []) : Scan.strip U.isSpace q ≠ [] := by
  intro hblank
  rw [parse_blank hblank] at h
  exact h rfl

theorem join_extend {c : Char} {a : Text} : ∀ L : List Text, Scan.join c (L ++ [a ++ v]) = Scan.join c (L ++ [a]) ++ v
  | [] => rfl
  | x :: L => by
    rw [List.cons_append, List.cons_append, Scan.join_cons (by simp), Scan.join_cons (by simp), join_extend L]
    simp

theorem open_no_content (hx : '"' ∉ x) : ¬HasContent (some ('"' :: x)) := by
  rintro ⟨token, heq, hends, hinner⟩
  cases heq
  rcases List.eq_nil_or_concat x with rfl | ⟨y, d, rfl⟩
  · exact hinner rfl
  · unfold quoteEnds at hends
    rw [List.concat_eq_append, ← List.cons_append, List.getLast?_concat] at hends
    have hd : d = '"' := by simpa using hends
    exact hx (by simp [hd])

theorem tokenize_blank (hpost : ∀ c ∈ post, U.isSpace c = true) :
    tokenize U [] false (post ++ ' ' :: s) = tokenize U [] false s := by
  induction post with
  | nil => exact tokenize_space U.space
  | cons c post ih =>
    rw [List.cons_append, tokenize_space (hpost c List.mem_cons_self)]
    exact ih fun d hd => hpost d (List.mem_cons_of_mem _ hd)

theorem blank_start (hpost : ∀ c ∈ post, U.isSpace c = true) :
    ∀ c ∈ (post ++ ' ' :: s).head?, U.isSpace c = true := by
  intro c hc
  cases post with
  | nil =>
    rw [← Option.mem_some_iff.mp hc]
    exact U.space
  | cons d post =>
    rw [← Option.mem_some_iff.mp hc]
    exact hpost d List.mem_cons_self

theorem blank_quote (hpost : ∀ c ∈ post, U.isSpace c = true) (hs : '"' ∉ s) : '"' ∉ post ++ ' ' :: s := by
  rw [List.mem_append, not_or]
  refine ⟨fun hq => ?_, by simpa using hs⟩
  have := hpost _ hq
  rw [mark_space (by decide)] at this
  cases this

theorem mark_bare (hm : m ∈ ['+', '!']) : U.isSpace m = false ∧ m ∉ ['"', '@', ':'] ∧ m ∉ ['"', '@'] := by
  have hmark : U.isSpace m = false := mark_space (by
    simp only [List.mem_cons, List.not_mem_nil, or_false] at hm
    rcases hm with rfl | rfl <;> decide)
  refine ⟨hmark, ?_⟩
  simp only [List.mem_cons, List.not_mem_nil, or_false] at hm
  rcases hm with rfl | rfl <;> decide

theorem followedBy_controls (h : (extractControls U q).1 ≠ []) (ht : t.Ok U) (hm : m ∈ ['+', '!']) :
    ∃ post, (∀ d ∈ post, U.isSpace d = true) ∧
      (extractControls U (followedBy q m t)).1 = (extractControls U q).1 ++ (post ++ ' ' :: m :: t.str) := by
  obtain ⟨hspace, hchars, hquiet⟩ := mark_bare (U := U) hm
  have hat : '@' ∉ m :: t.str := by
    rw [List.mem_cons, not_or]
    refine ⟨fun hmat => hquiet (by simp [← hmat]), ?_⟩
    cases t with
    | word w => exact fun hw => (ht.2 _ hw).2 (by simp)
    | phrase x =>
      show '@' ∉ '"' :: x ++ ['"']
      simpa using ht.2.2
  have hlast : ∀ d ∈ (m :: t.str).getLast?, U.isSpace d = false := by
    intro d hd
    cases t with
    | word w =>
      rcases List.mem_cons.mp (List.mem_of_getLast? hd) with rfl | hd
      · exact hspace
      · exact (ht.2 d hd).1
    | phrase x =>
      have hd : d ∈ (m :: '"' :: x ++ ['"']).getLast? := hd
      rw [List.getLast?_concat] at hd
      rw [← Option.mem_some_iff.mp hd]
      exact mark_space (by decide)
  obtain ⟨post, hpost, heq⟩ := extractControls_before (q := q) (u := m :: t.str) (by simp) hat (by rintro d ⟨⟩; exact hspace)
    hlast
  rw [if_neg h, List.append_assoc] at heq
  exact ⟨post, hpost, heq⟩

theorem controls_ne (h : (parse U q).terms ≠ []) : (extractControls U q).1 ≠ [] := by
  intro hnil
  rw [parse_eq (stripped_ne h)] at h
  refine h ?_
  unfold tokensOf
  rw [hnil]
  rfl

theorem followedBy_ne (hm : m ∈ ['+', '!']) : Scan.strip U.isSpace (followedBy q m t) ≠ [] := by
  intro hblank
  have := strip_blank hblank m (by simp [followedBy])
  rw [(mark_bare hm).1] at this
  cases this

theorem parse_word (h : (parse U q).terms ≠ []) (hw : (Operand.word w).Ok U) (hm : m ∈ ['+', '!']) :
    (parse U (followedBy q m (.word w))).terms = (parse U q).terms ++ [⟨w, parseModifier m, false⟩] ∧
      (parse U (followedBy q m (.word w))).filters = (parse U q).filters := by
  obtain ⟨hspace, hchars, -⟩ := mark_bare (U := U) hm
  have hbare : ∀ c ∈ m :: w, U.isSpace c = false ∧ c ∉ ['"', '@', ':'] := by
    rw [List.forall_mem_cons]
    exact ⟨⟨hspace, hchars⟩, hw.2⟩
  have hquote : '"' ∉ m :: w := fun hq => (hbare _ hq).2 (by simp)
  have hnofilter : ∀ next, filterAt U (m :: w) next = none := by
    intro next
    unfold filterAt
    rw [if_neg]
    have : ':' ∉ m :: w := fun hc => (hbare _ hc).2 (by simp)
    simp [this]
  have hnocontent : ¬HasContent [m :: w].head? := by
    rintro ⟨token, heq, hends, -⟩
    cases heq
    rw [quoteEnds_of_not_mem hquote] at hends
    cases hends
  have hterm : ((Scan.words U.isSpace [] (m :: w)).filterMap termOf).map Prod.fst = [⟨w, parseModifier m, false⟩] := by
    rw [Scan.words_single (fun c hc => (hbare c hc).1) (by simp)]
    have hnospace : ' ' ∉ w := fun hs => by
      have := (hw.2 _ hs).1
      rw [U.space] at this
      cases this
    have hmod : parseModifier m ≠ .none := by
      simp only [List.mem_cons, List.not_mem_nil, or_false] at hm
      rcases hm with rfl | rfl <;> decide
    have hof : termOf (m :: w) = some (⟨w, parseModifier m, false⟩, none) := by
      unfold termOf
      simp [hmod, hw.1, hnospace]
    rw [List.filterMap_cons_some hof]
    rfl
  obtain ⟨post, hpost, heq⟩ := followedBy_controls (controls_ne h) hw hm
  have hv := blank_quote hpost hquote
  have hne := stripped_ne h
  rw [parse_eq hne] at h ⊢
  rw [parse_eq (followedBy_ne hm)]
  dsimp only at h ⊢
  unfold tokensOf at h ⊢
  rw [heq]
  rcases tokenize_ends (U := U) (extractControls U q).1 [] false (by simp) with hclosed | ⟨init, x, hinit, hx, hopen⟩
  · have htok : tokenize U [] false (post ++ ' ' :: m :: w) = [m :: w] := by
      have hreads := reads_word (U := U) (w := m :: w)
        ⟨by simp, fun c hc => ⟨(hbare c hc).1, fun he => (hbare c hc).2 (by simp [he])⟩⟩ [] (by simp)
      rw [List.append_nil] at hreads
      rw [tokenize_blank hpost, hreads]
      rfl
    have hfilters := extractFilters_before (U := U) (V := [m :: w]) (by simpa using hnofilter) hnocontent
      (tokenize U [] false (extractControls U q).1) false (by simp)
    show (extractTerms U (Scan.join ' ' (extractFilters U false (tokenize U [] false
      ((extractControls U q).1 ++ (post ++ ' ' :: m :: w)))).1)).1 = _ ∧ (extractFilters U false (tokenize U [] false
        ((extractControls U q).1 ++ (post ++ ' ' :: m :: w)))).2 = _
    rw [hclosed _ (blank_start hpost), htok, hfilters]
    refine ⟨?_, rfl⟩
    have hleft : (extractFilters U false (tokenize U [] false (extractControls U q).1)).1 ≠ [] := by
      intro hnil
      rw [hnil] at h
      exact h rfl
    have hjoin := extractTerms_before (U := U) [] (by simp) hquote
      (Scan.join ' ' (extractFilters U false (tokenize U [] false (extractControls U q).1)).1)
    rw [List.nil_append, hterm] at hjoin
    rw [Scan.join_append hleft (by simp)]
    exact hjoin
  · have hV : ∀ y : Text, ∀ s ∈ [('"' :: y : Text)], ∀ next, filterAt U s next = none := by
      intro y s hs next
      rw [List.mem_singleton.mp hs]
      exact filterAt_quote rfl next
    have hshort := extractFilters_before (hV x) (open_no_content hx) init false (by simp)
    have hlong := extractFilters_before (hV (x ++ (post ++ ' ' :: m :: w)))
      (open_no_content (by rw [List.mem_append, not_or]; exact ⟨hx, hv⟩)) init false (by simp)
    show (extractTerms U (Scan.join ' ' (extractFilters U false (tokenize U [] false
      ((extractControls U q).1 ++ (post ++ ' ' :: m :: w)))).1)).1 = _ ∧ (extractFilters U false (tokenize U [] false
        ((extractControls U q).1 ++ (post ++ ' ' :: m :: w)))).2 = _
    rw [hinit, hopen _ hv, hshort, hlong]
    refine ⟨?_, rfl⟩
    dsimp only
    rw [← List.cons_append, join_extend, extractTerms_before post hpost hquote, hterm]

/-- The tokens left of a query whose quotes are paired. -/
structure Held (U : CharTable) (ks : List Tok) : Prop where
  ok : ∀ k ∈ ks, k.Ok U
  closed : ∀ k ∈ ks, k.isOpened = false
  filled : ∀ k ∈ ks, k.text ≠ ['"', '"']

theorem Held.aligned (h : Held U ks) : Aligned U ks :=
  ⟨h.ok, List.pairwise_of_forall_mem_list fun k hk _ _ => h.closed k hk,
    List.pairwise_of_forall_mem_list fun k hk _ _ hpair => absurd hpair (h.filled k hk)⟩

theorem held_of_paired (hq : Paired U q) :
    ∃ ks, Held U ks ∧ (extractFilters U false (tokensOf U q)).1 = ks.map Tok.text := by
  obtain ⟨ts, hts, -, hok⟩ := tokenize_spec (U := U) (extractControls U q).1 [] false (by simp) (by simp)
  obtain ⟨ks, hsub, hkept, -, -⟩ := extractFilters_spec ts false fun t ht => (hok t ht).1
  have htokens : tokensOf U q = ts.map Tok.text := hts
  rw [← htokens] at hkept
  have hpaired : ∀ k ∈ ks, ¬LeftOpen k.text ∧ k.text ≠ ['"', '"'] := fun k hk =>
    hq k.text (by rw [htokens]; exact List.mem_map_of_mem (hsub.subset hk))
  refine ⟨ks, ⟨fun k hk => (hok k (hsub.subset hk)).1, fun k hk => ?_, fun k hk => (hpaired k hk).2⟩, hkept⟩
  cases k with
  | word w => rfl
  | quoted y => rfl
  | opened y => exact absurd ⟨rfl, (hok _ (hsub.subset hk)).1⟩ (hpaired _ hk).1

theorem Held.phrase (h : Held U ks) (hm : m ∈ ['+', '!']) (hx : x ≠ []) (hquote : '"' ∉ x) :
    Held U (ks ++ [.word [m], .quoted x]) := by
  obtain ⟨hspace, hchars, -⟩ := mark_bare (U := U) hm
  have hword : (Tok.word [m]).Ok U := by
    refine ⟨by simp, fun c hc => ?_⟩
    rw [List.mem_singleton.mp hc]
    exact ⟨hspace, fun he => hchars (by simp [he])⟩
  refine ⟨?_, ?_, ?_⟩
  · exact List.forall_mem_append.mpr ⟨h.ok, by simpa using ⟨hword, hquote⟩⟩
  · exact List.forall_mem_append.mpr ⟨h.closed, by simp [Tok.isOpened]⟩
  · exact List.forall_mem_append.mpr ⟨h.filled, by simp [Tok.text, hx]⟩

/-- **A phrase with a modifier is one more phrase**, without its modifier, where the query's quotes are paired. -/
theorem parse_phrase (h : (parse U q).terms ≠ []) (hx : (Operand.phrase x).Ok U) (hq : Paired U q) :
    ∃ ps rest, (parse U q).terms = ps ++ rest ∧ ∀ m ∈ ['+', '!'],
      (parse U (followedBy q m (.phrase x))).terms = ps ++ ⟨x, .none, true⟩ :: rest ∧
        (parse U (followedBy q m (.phrase x))).filters = (parse U q).filters := by
  obtain ⟨hxne, hquote, hat⟩ := hx
  obtain ⟨ks, hks, hkept⟩ := held_of_paired hq
  have hne := stripped_ne h
  refine ⟨(ks.filterMap Tok.phrase).map fun y => ⟨y, .none, true⟩, (plainTerms (ks.flatMap (Tok.left U))).map Prod.fst, ?_, ?_⟩
  · rw [parse_eq hne, hkept, extractTerms_tokens hks.aligned]
  · intro m hm
    obtain ⟨hspace, hchars, -⟩ := mark_bare (U := U) hm
    obtain ⟨post, hpost, heq⟩ := followedBy_controls (t := .phrase x) (controls_ne h) ⟨hxne, hquote, hat⟩ hm
    -- the quotes are paired, so the modifier begins a token
    have htokens : tokensOf U (followedBy q m (.phrase x)) = tokensOf U q ++ [[m], '"' :: x ++ ['"']] := by
      unfold tokensOf
      rw [heq]
      rcases tokenize_ends (U := U) (extractControls U q).1 [] false (by simp) with hclosed | ⟨init, y, hinit, hy, -⟩
      · have hreads := reads_word_quoted (U := U) (w := [m]) (hks.phrase hm hxne hquote |>.ok _ (by simp)) hquote [] (by simp)
        rw [List.append_nil] at hreads
        rw [hclosed _ (blank_start hpost), tokenize_blank hpost]
        show _ ++ tokenize U [] false ([m] ++ ('"' :: x ++ ['"'])) = _
        rw [hreads]
        rfl
      · exact absurd ⟨rfl, hy⟩ (hq ('"' :: y) (by unfold tokensOf; rw [hinit]; simp)).1
    have hnofilter : ∀ s ∈ [[m], '"' :: x ++ ['"']], ∀ next, filterAt U s next = none := by
      intro s hs next
      simp only [List.mem_cons, List.not_mem_nil, or_false] at hs
      rcases hs with rfl | rfl
      · unfold filterAt
        rw [if_neg]
        have : ':' ≠ m := fun he => hchars (by simp [← he])
        simp [this]
      · exact filterAt_quote rfl next
    have hfilters := extractFilters_before hnofilter
      (by
        rintro ⟨token, heq, hends, -⟩
        cases heq
        rw [quoteEnds_of_not_mem (by simpa using fun he => hchars (by simp [← he]))] at hends
        cases hends)
      (tokensOf U q) false (by simp)
    have hadded := extractTerms_tokens (hks.phrase hm hxne hquote).aligned
    have hmark : termOf [m] = none := by
      simp only [List.mem_cons, List.not_mem_nil, or_false] at hm
      rcases hm with rfl | rfl <;> rfl
    have hphrase : (Tok.quoted x).phrase = some x := if_neg hxne
    rw [parse_eq (followedBy_ne hm), parse_eq hne, htokens, hfilters, hkept]
    refine ⟨?_, rfl⟩
    dsimp only
    rw [show ks.map Tok.text ++ [[m], '"' :: x ++ ['"']] =
      (ks ++ [Tok.word [m], Tok.quoted x]).map Tok.text by simp [Tok.text],
      hadded]
    have hleft : (ks ++ [Tok.word [m], Tok.quoted x]).flatMap (Tok.left U) = ks.flatMap (Tok.left U) ++ [[m]] := by
      rw [List.flatMap_append, List.flatMap_cons, List.flatMap_singleton,
        Tok.left_word (hks.phrase hm hxne hquote |>.ok _ (by simp))]
      unfold Tok.left
      rw [hphrase]
      rfl
    have hplain : plainTerms (ks.flatMap (Tok.left U) ++ [[m]]) = plainTerms (ks.flatMap (Tok.left U)) := by
      unfold plainTerms
      rw [List.filterMap_append, List.filterMap_cons_none hmark, List.filterMap_nil, List.append_nil]
    rw [hleft, hplain, List.filterMap_append, List.filterMap_cons_none (by rfl), List.filterMap_cons_some hphrase]
    simp

theorem termOf_sub {r : Term × Option Text} (h : termOf w = some r) : r.1.text ⊆ w := by
  unfold termOf at h
  dsimp only at h
  split_ifs at h
  all_goals
    cases h
    first
    | exact List.Subset.refl _
    | exact List.tail_subset w

theorem paired_terms (hq : Paired U q) : ∀ t ∈ (parse U q).terms, '"' ∉ t.text := by
  by_cases hblank : Scan.strip U.isSpace q = []
  · rw [parse_blank hblank]
    simp
  · obtain ⟨ks, hks, hkept⟩ := held_of_paired hq
    rw [parse_eq hblank, hkept, extractTerms_tokens hks.aligned]
    intro t ht
    rcases List.mem_append.mp ht with ht | ht
    · obtain ⟨y, hy, rfl⟩ := List.mem_map.mp ht
      obtain ⟨k, hk, hphrase⟩ := List.mem_filterMap.mp hy
      obtain ⟨rfl, -⟩ := Tok.phrase_some hphrase
      exact hks.ok _ hk
    · obtain ⟨r, hr, rfl⟩ := List.mem_map.mp ht
      obtain ⟨w, hw, hterm⟩ := List.mem_filterMap.mp hr
      obtain ⟨k, hk, hleft⟩ := List.mem_flatMap.mp hw
      have hok := hks.ok k hk
      cases k with
      | word v =>
        rw [Tok.left_word hok] at hleft
        rw [List.mem_singleton.mp hleft] at hterm
        exact fun hmem => (hok.2 _ (termOf_sub hterm hmem)).2 rfl
      | quoted y =>
        have hy : y ≠ [] := fun hy => hks.filled _ hk (by rw [hy]; rfl)
        unfold Tok.left at hleft
        rw [show (Tok.quoted y).phrase = some y from if_neg hy] at hleft
        cases hleft
      | opened y => exact absurd (hks.closed _ hk) (by simp [Tok.isOpened])

/-- The text of the terms does not end in a quote. -/
def Unquoted (U : CharTable) (ts : List Term) : Prop :=
  (Scan.strip U.isSpace (Scan.join ' ' (ts.map Term.text))).getLast? ≠ some '"'

/-- **What is added is one more term.** -/
theorem parse_followedBy (h : (parse U q).terms ≠ []) (ht : t.Ok U) (hq : t.isPhrase = true → Paired U q) :
    ∃ ps rest, (parse U q).terms = ps ++ rest ∧ ∀ m ∈ ['+', '!'], ∃ md, md ≠ .semantic ∧
      (parse U (followedBy q m t)).terms = ps ++ ⟨t.text, md, t.isPhrase⟩ :: rest ∧
      (parse U (followedBy q m t)).filters = (parse U q).filters ∧ Unquoted U (ps ++ ⟨t.text, md, t.isPhrase⟩ :: rest) := by
  cases t with
  | word w =>
    refine ⟨(parse U q).terms, [], (List.append_nil _).symm, fun m hm => ?_⟩
    obtain ⟨hterms, hfilters⟩ := parse_word h ht hm
    refine ⟨parseModifier m, ?_, hterms, hfilters, ?_⟩
    · simp only [List.mem_cons, List.not_mem_nil, or_false] at hm
      rcases hm with rfl | rfl <;> decide
    · unfold Unquoted
      obtain ⟨hw, hchars⟩ := ht
      have hends : ∀ d ∈ w.getLast?, U.isSpace d = false := fun d hd => (hchars d (List.mem_of_getLast? hd)).1
      have hstarts : ∀ d ∈ w.head?, U.isSpace d = false := fun d hd => (hchars d (List.mem_of_mem_head? hd)).1
      obtain ⟨post, -, heq⟩ := Scan.strip_before (r := Scan.join ' ' ((parse U q).terms.map Term.text)) U.space hstarts hends hw
      have hlast : ∀ z : Text, (z ++ w).getLast? ≠ some '"' := by
        intro z hz
        rw [List.getLast?_append_of_ne_nil _ hw] at hz
        exact (hchars _ (List.mem_of_getLast? hz)).2 (by simp)
      rw [List.map_append, Scan.join_append (by simpa using h) (by simp)]
      show (Scan.strip U.isSpace (Scan.join ' ' ((parse U q).terms.map Term.text) ++ ' ' :: w)).getLast? ≠ _
      rw [heq]
      split_ifs
      · exact hlast []
      · have := hlast (Scan.strip U.isSpace (Scan.join ' ' ((parse U q).terms.map Term.text)) ++ post ++ [' '])
        simpa using this
  | phrase x =>
    have hpaired := hq rfl
    obtain ⟨ps, rest, hsplit, hadded⟩ := parse_phrase h ht hpaired
    refine ⟨ps, rest, hsplit, fun m hm => ⟨.none, by decide, (hadded m hm).1, (hadded m hm).2, ?_⟩⟩
    have hquiet := paired_terms hpaired
    rw [hsplit] at hquiet
    have hjoin : '"' ∉ Scan.join ' ' ((ps ++ ⟨x, .none, true⟩ :: rest).map Term.text) := not_mem_join (by
      intro y hy
      obtain ⟨u, hu, rfl⟩ := List.mem_map.mp hy
      rcases List.mem_append.mp hu with hu | hu
      · exact hquiet u (List.mem_append_left _ hu)
      · rcases List.mem_cons.mp hu with rfl | hu
        · exact ht.2.1
        · exact hquiet u (List.mem_append_right _ hu))
    intro hlast
    exact hjoin (Scan.strip_infix.subset (List.mem_of_getLast? hlast))

end Added

end Query

end Mantle
