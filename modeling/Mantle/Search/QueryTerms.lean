import Mantle.Search.QueryTokens

/-!
# Mantle.Search.QueryTerms — terms are read back

Where quotes are paired as the tokens are, the phrases found are the quoted tokens, and what they leave is the words of
the others.
-/

namespace Mantle

namespace Query

variable {c : Char} {s w x : Text}

/-! ### The third pass -/

section Third

variable {U : CharTable}

theorem quotedAt_ne (h : c ≠ '"') : quotedAt (c :: s) = none := by
  unfold quotedAt
  split
  · rename_i heq
    cases heq
    exact absurd rfl h
  · rfl

theorem quotedAt_phrase {r : Text} (hne : x ≠ []) (hx : '"' ∉ x) : quotedAt ('"' :: x ++ '"' :: r) = some x := by
  have hsplit := takeWhile_run (p := (· ≠ '"')) (n := x) (r := '"' :: r)
    (by
      intro d hd
      rw [decide_eq_true_eq]
      rintro rfl
      exact hx hd)
    (by rintro d ⟨⟩; decide)
  show (if (decide ((x ++ '"' :: r).takeWhile (· ≠ '"') = []) || decide ((x ++ '"' :: r).dropWhile (· ≠ '"') = [])) = true
    then none else some ((x ++ '"' :: r).takeWhile (· ≠ '"'))) = _
  rw [hsplit.1, hsplit.2, if_neg (by simp [hne])]

theorem quotedAt_open (h : '"' ∉ s ∨ s.head? = some '"') : quotedAt ('"' :: s) = none := by
  show (if (decide (s.takeWhile (· ≠ '"') = []) || decide (s.dropWhile (· ≠ '"') = [])) = true
    then none else some (s.takeWhile (· ≠ '"'))) = _
  rw [if_pos]
  rw [Bool.or_eq_true, decide_eq_true_eq, decide_eq_true_eq]
  rcases h with h | h
  · right
    rw [List.dropWhile_eq_nil_iff]
    intro c hc
    rw [decide_eq_true_eq]
    rintro rfl
    exact h hc
  · left
    obtain ⟨s', rfl⟩ := List.head?_eq_some_iff.mp h
    exact List.takeWhile_cons_of_neg (by simp)

theorem phraseAt_cons : phraseAt (c :: s) =
    if c ∈ ['+', '!', '~', '='] then (quotedAt s).map fun text => (⟨text, parseModifier c, true⟩, text.length + 3)
    else (quotedAt (c :: s)).map fun text => (⟨text, .none, true⟩, text.length + 2) := rfl

theorem phraseAt_none (h1 : quotedAt (c :: s) = none) (h2 : c ∈ ['+', '!', '~', '='] → s.head? ≠ some '"') :
    phraseAt (c :: s) = none := by
  rw [phraseAt_cons]
  split_ifs with hc
  · have hs : quotedAt s = none := by
      cases s with
      | nil => rfl
      | cons d s => exact quotedAt_ne fun hd => h2 hc (by rw [hd]; rfl)
    rw [hs]
    rfl
  · rw [h1]
    rfl

theorem findAll_noQuote (h : '"' ∉ s) : Scan.findAll phraseAt 0 s = [] := by
  have hskip : Scan.findAll phraseAt 0 (s ++ []) = Scan.findAll phraseAt 0 [] := by
    refine Scan.findAll_append fun y hy hsuf => ?_
    obtain ⟨c, y, rfl⟩ := List.exists_cons_of_ne_nil hy
    have hmem : ∀ d ∈ c :: y, d ≠ '"' := fun d hd he => h (hsuf.subset (he ▸ hd))
    rw [List.append_nil]
    refine phraseAt_none (quotedAt_ne (hmem c List.mem_cons_self)) fun _ hhead => ?_
    exact hmem '"' (List.mem_cons_of_mem _ (List.mem_of_mem_head? hhead)) rfl
  rwa [List.append_nil] at hskip

theorem findAll_word (h : '"' ∉ w) : Scan.findAll phraseAt 0 (w ++ ' ' :: s) = Scan.findAll phraseAt 0 s := by
  rw [show w ++ ' ' :: s = (w ++ [' ']) ++ s by simp]
  refine Scan.findAll_append fun y hy hsuf => ?_
  rcases List.suffix_concat_iff.mp hsuf with rfl | ⟨t, rfl, hsuf'⟩
  · exact absurd rfl hy
  · have hmem : ∀ d ∈ t, d ≠ '"' := fun d hd he => h (hsuf'.subset (he ▸ hd))
    cases t with
    | nil => exact phraseAt_none (quotedAt_ne (by decide)) fun hc => absurd hc (by decide)
    | cons c t =>
      refine phraseAt_none (quotedAt_ne (hmem c List.mem_cons_self)) fun _ => ?_
      cases t with
      | nil => simp
      | cons d t => simpa using hmem d (by simp)

theorem findAll_phrase {r : Text} (hne : x ≠ []) (hx : '"' ∉ x) :
    Scan.findAll phraseAt 0 ('"' :: x ++ '"' :: r) = ⟨x, .none, true⟩ :: Scan.findAll phraseAt 0 r := by
  have hat : phraseAt ('"' :: (x ++ '"' :: r)) = some (⟨x, .none, true⟩, x.length + 2) := by
    have := quotedAt_phrase (r := r) hne hx
    rw [List.cons_append] at this
    rw [phraseAt_cons, if_neg (by decide), this]
    rfl
  rw [List.cons_append, Scan.findAll_some hat (by omega)]
  simp

/-! Tokens, as the third pass reads them -/

/-- The words of a token that is no phrase. -/
def Tok.left (U : CharTable) (k : Tok) : List Text :=
  match k.phrase with
  | some _ => []
  | none => Scan.words U.isSpace [] k.text

/-- An empty pair of quotes has no quote after it. -/
def Settles (s t : Text) : Prop := s = ['"', '"'] → t.head? ≠ some '"'

/-- Tokens the third pass reads as they are: an open one is last, and an empty pair has no quote after it. -/
structure Aligned (U : CharTable) (ks : List Tok) : Prop where
  ok : ∀ k ∈ ks, k.Ok U
  last : ks.Pairwise fun k _ => k.isOpened = false
  pairs : ks.Pairwise fun k k' => Settles k.text k'.text

theorem Aligned.tail {k : Tok} {ks : List Tok} (h : Aligned U (k :: ks)) : Aligned U ks :=
  ⟨(List.forall_mem_cons.mp h.ok).2, (List.pairwise_cons.mp h.last).2, (List.pairwise_cons.mp h.pairs).2⟩

theorem Tok.phrase_some {k : Tok} (h : k.phrase = some x) : k = .quoted x ∧ x ≠ [] := by
  cases k with
  | quoted y =>
    unfold Tok.phrase at h
    dsimp only at h
    split_ifs at h with hy
    cases h
    exact ⟨rfl, hy⟩
  | word w => cases h
  | opened y => cases h

theorem Aligned.after {k : Tok} {ks : List Tok} (h : Aligned U (k :: ks)) (hno : k.phrase = none) (hq : '"' ∈ k.text) :
    ∀ k' ∈ ks, '"' ∉ k'.text := by
  have hok := List.forall_mem_cons.mp h.ok
  cases k with
  | word w => exact absurd hq fun hq => (hok.1.2 _ hq).2 rfl
  | opened x =>
    intro k' hk'
    have := (List.pairwise_cons.mp h.last).1 k' hk'
    cases this
  | quoted x =>
    have hx : x = [] := by
      by_contra hne
      unfold Tok.phrase at hno
      dsimp only at hno
      rw [if_neg hne] at hno
      cases hno
    intro k' hk' hmem
    have hset := (List.pairwise_cons.mp h.pairs).1 k' hk' (by rw [hx]; rfl)
    cases k' with
    | word w => exact ((hok.2 _ hk').2 _ hmem).2 rfl
    | quoted y => exact hset rfl
    | opened y => exact hset rfl

theorem not_mem_join {l : List Text} (h : ∀ x ∈ l, '"' ∉ x) : '"' ∉ Scan.join ' ' l := by
  induction l with
  | nil => simp [Scan.join]
  | cons x l ih =>
    obtain ⟨hx, hl⟩ := List.forall_mem_cons.mp h
    by_cases hnil : l = []
    · rw [hnil]
      exact hx
    · rw [Scan.join_cons hnil]
      simp only [List.mem_append, List.mem_cons, not_or]
      exact ⟨hx, by decide, ih hl⟩

theorem phrase_none_of_noQuote {k : Tok} (h : '"' ∉ k.text) : k.phrase = none := by
  cases hp : k.phrase with
  | none => rfl
  | some x =>
    obtain ⟨rfl, -⟩ := Tok.phrase_some hp
    exact absurd (by simp [Tok.text]) h

theorem findAll_after {k : Tok} {ks : List Tok} (h : Aligned U (k :: ks)) (hno : k.phrase = none) (hq : '"' ∈ k.text) :
    Scan.findAll phraseAt 0 (Scan.join ' ' ((k :: ks).map Tok.text)) = [] := by
  have hrest : '"' ∉ Scan.join ' ' (ks.map Tok.text) := not_mem_join (by
    intro x hx
    obtain ⟨k', hk', rfl⟩ := List.mem_map.mp hx
    exact h.after hno hq k' hk')
  have hok := List.forall_mem_cons.mp h.ok
  -- the text from a first quote on, with no other quote
  have hone : ∀ s : Text, '"' ∉ s → Scan.findAll phraseAt 0 ('"' :: s) = [] := by
    intro s hs
    rw [Scan.findAll_none (phraseAt_none (quotedAt_open (.inl hs)) fun hc => absurd hc (by decide))]
    exact findAll_noQuote hs
  cases k with
  | word w => exact absurd hq fun hq => (hok.1.2 _ hq).2 rfl
  | opened x =>
    cases ks with
    | nil => exact hone x hok.1
    | cons k' ks =>
      have := (List.pairwise_cons.mp h.last).1 k' List.mem_cons_self
      cases this
  | quoted x =>
    have hx : x = [] := by
      by_contra hne
      unfold Tok.phrase at hno
      dsimp only at hno
      rw [if_neg hne] at hno
      cases hno
    subst hx
    have htwo : ∀ s : Text, '"' ∉ s → Scan.findAll phraseAt 0 ('"' :: '"' :: s) = [] := by
      intro s hs
      rw [Scan.findAll_none (phraseAt_none (quotedAt_open (.inr rfl)) fun hc => absurd hc (by decide)), hone s hs]
    by_cases hks : ks = []
    · rw [hks]
      exact htwo [] (by simp)
    · rw [List.map_cons, Scan.join_cons (by simpa using hks)]
      exact htwo _ (by simpa using hrest)

theorem findAll_tokens : ∀ {ks : List Tok}, Aligned U ks → Scan.findAll phraseAt 0 (Scan.join ' ' (ks.map Tok.text)) =
    (ks.filterMap Tok.phrase).map fun x => ⟨x, .none, true⟩
  | [], _ => rfl
  | k :: ks, h => by
    have ih := findAll_tokens h.tail
    cases hp : k.phrase with
    | none =>
      rw [List.filterMap_cons_none hp]
      by_cases hq : '"' ∈ k.text
      · have hnone : ks.filterMap Tok.phrase = [] := List.filterMap_eq_nil_iff.mpr fun k' hk' =>
          phrase_none_of_noQuote (h.after hp hq k' hk')
        rw [findAll_after h hp hq, hnone]
        rfl
      · by_cases hks : ks = []
        · rw [hks]
          exact findAll_noQuote hq
        · rw [List.map_cons, Scan.join_cons (by simpa using hks), findAll_word hq, ih]
    | some x =>
      obtain ⟨rfl, hx⟩ := Tok.phrase_some hp
      have hquote : '"' ∉ x := h.ok _ List.mem_cons_self
      rw [List.filterMap_cons_some hp, List.map_cons, List.map_cons, ← ih]
      by_cases hks : ks = []
      · rw [hks]
        exact findAll_phrase hx hquote
      · rw [Scan.join_cons (by simpa using hks)]
        have := findAll_phrase (r := ' ' :: Scan.join ' ' (ks.map Tok.text)) hx hquote
        rw [show (Tok.quoted x).text ++ ' ' :: Scan.join ' ' (ks.map Tok.text) =
          '"' :: x ++ '"' :: ' ' :: Scan.join ' ' (ks.map Tok.text) by simp [Tok.text], this]
        exact congrArg _ (findAll_word (w := []) (by simp))

theorem words_joined {l : List Text} : Scan.words U.isSpace [] (Scan.join ' ' l) = l.flatMap (Scan.words U.isSpace []) := by
  induction l with
  | nil => rfl
  | cons x l ih =>
    by_cases hl : l = []
    · rw [hl]
      simp [Scan.join]
    · rw [Scan.join_cons hl, Scan.words_append_sep U.space, ih, List.flatMap_cons]

theorem words_tokens : ∀ {ks : List Tok} (pre : Text), Aligned U ks → '"' ∉ pre →
    Scan.words U.isSpace [] (((ks.filterMap Tok.phrase).map fun x => (⟨x, .none, true⟩ : Term)).foldl
        (fun remaining t => Scan.replaceFirst t.str remaining) (pre ++ ' ' :: Scan.join ' ' (ks.map Tok.text))) =
      Scan.words U.isSpace [] pre ++ ks.flatMap (Tok.left U)
  | [], pre, _, _ => by
    show Scan.words U.isSpace [] (pre ++ [' ']) = _
    rw [Scan.words_append_sep U.space]
    rfl
  | k :: ks, pre, h, hpre => by
    have ih := fun pre' => words_tokens pre' h.tail
    cases hp : k.phrase with
    | none =>
      have hleft : k.left U = Scan.words U.isSpace [] k.text := by
        unfold Tok.left
        rw [hp]
      rw [List.filterMap_cons_none hp, List.flatMap_cons, hleft]
      by_cases hq : '"' ∈ k.text
      · -- no phrase is left to take out
        have hquiet := h.after hp hq
        have hnone : ks.filterMap Tok.phrase = [] := List.filterMap_eq_nil_iff.mpr fun k' hk' =>
          phrase_none_of_noQuote (hquiet k' hk')
        rw [hnone]
        show Scan.words U.isSpace [] (pre ++ ' ' :: _) = _
        rw [Scan.words_append_sep U.space, words_joined, List.map_cons, List.flatMap_cons]
        congr 2
        rw [List.flatMap_map]
        refine List.flatMap_congr fun k' hk' => ?_
        unfold Tok.left
        rw [phrase_none_of_noQuote (hquiet k' hk')]
      · by_cases hks : ks = []
        · subst hks
          show Scan.words U.isSpace [] (pre ++ ' ' :: k.text) = _
          rw [Scan.words_append_sep U.space]
          simp
        · rw [List.map_cons, Scan.join_cons (by simpa using hks)]
          have := ih (pre ++ ' ' :: k.text) (by simpa [hpre] using hq)
          rw [List.append_assoc] at this
          rw [List.cons_append] at this
          rw [this, Scan.words_append_sep U.space, List.append_assoc]
    | some x =>
      obtain ⟨rfl, hx⟩ := Tok.phrase_some hp
      have hstr : (⟨x, .none, true⟩ : Term).str = (Tok.quoted x).text := rfl
      have hcut : ∀ r, Scan.replaceFirst (Tok.quoted x).text (pre ++ ' ' :: ((Tok.quoted x).text ++ r)) =
          pre ++ ' ' :: r := by
        intro r
        have this : Scan.replaceFirst (Tok.quoted x).text ((pre ++ [' ']) ++ (Tok.quoted x).text ++ r) =
            (pre ++ [' ']) ++ r := Scan.replaceFirst_append (by simp [Tok.text]) (pre ++ [' '])
          (by
            rintro y hy hsuf ⟨z, hz⟩
            obtain ⟨c, y, rfl⟩ := List.exists_cons_of_ne_nil hy
            have hc : c = '"' := by
              have := congrArg List.head? hz
              simpa [Tok.text] using this.symm
            have hmem : '"' ∈ pre ++ [' '] := hsuf.subset (by rw [hc]; exact List.mem_cons_self)
            simp [hpre] at hmem)
        simpa using this
      have hleft : (Tok.quoted x).left U = [] := by
        unfold Tok.left
        rw [hp]
      rw [List.filterMap_cons_some hp, List.map_cons, List.map_cons, List.foldl_cons, hstr, List.flatMap_cons, hleft,
        List.nil_append]
      by_cases hks : ks = []
      · subst hks
        have := hcut []
        rw [List.append_nil] at this
        show Scan.words U.isSpace [] (Scan.replaceFirst _ (pre ++ ' ' :: (Tok.quoted x).text)) = _
        rw [this, Scan.words_append_sep U.space]
        rfl
      · rw [Scan.join_cons (by simpa using hks), hcut]
        have hsp := ih (pre ++ [' ']) (by simpa using hpre)
        rw [List.append_assoc] at hsp
        rw [show ' ' :: ' ' :: Scan.join ' ' (ks.map Tok.text) = [' '] ++ ' ' :: Scan.join ' ' (ks.map Tok.text) from rfl, hsp,
          Scan.words_append_sep U.space]
        simp [Scan.words]

end Third

section Terms

variable {U : CharTable}

def plainTerms (words : List Text) : List (Term × Option Text) := words.filterMap termOf

theorem replace_space {ts : List Term} (h : ∀ t ∈ ts, t.str.head? = some '"') : ∀ {s : Text},
    ts.foldl (fun remaining t => Scan.replaceFirst t.str remaining) (' ' :: s) =
      ' ' :: ts.foldl (fun remaining t => Scan.replaceFirst t.str remaining) s := by
  induction ts with
  | nil => exact fun {_} => rfl
  | cons t ts ih =>
    intro s
    obtain ⟨ht, hts⟩ := List.forall_mem_cons.mp h
    obtain ⟨g, hg⟩ := List.head?_eq_some_iff.mp ht
    have hno : ¬t.str.isPrefixOf (' ' :: s) = true := by
      rw [hg]
      simp [List.isPrefixOf]
    rw [List.foldl_cons, List.foldl_cons]
    show ts.foldl _ (if t.str.isPrefixOf (' ' :: s) then _ else _) = _
    rw [if_neg hno, ih hts]

/-- **The terms of a text are those of its tokens.** -/
theorem extractTerms_tokens {ks : List Tok} (h : Aligned U ks) : extractTerms U (Scan.join ' ' (ks.map Tok.text)) =
    ((ks.filterMap Tok.phrase).map (fun x => ⟨x, .none, true⟩) ++ (plainTerms (ks.flatMap (Tok.left U))).map Prod.fst,
      (plainTerms (ks.flatMap (Tok.left U))).filterMap Prod.snd) := by
  have hwords := words_tokens [] h (by simp)
  rw [List.nil_append, replace_space, Scan.words_cons, if_pos U.space, if_pos rfl, List.nil_append] at hwords
  · unfold extractTerms plainTerms
    dsimp only
    rw [findAll_tokens h, hwords]
    rfl
  · intro t ht
    obtain ⟨x, -, rfl⟩ := List.mem_map.mp ht
    rfl

theorem parseModifier_mark (h : parseModifier c ≠ .none) : (parseModifier c).mark = [c] := by
  unfold parseModifier at h ⊢
  split
  · rfl
  · rfl
  · rfl
  · rfl
  · rename_i h1 h2 h3 h4
    split at h
    · exact absurd rfl h1
    · exact absurd rfl h2
    · exact absurd rfl h3
    · exact absurd rfl h4
    · exact absurd rfl h

theorem termOf_str {r : Term × Option Text} (hw : ' ' ∉ w) (h : termOf w = some r) :
    r.1.str = w ∧ r.1.isPhrase = false := by
  unfold termOf at h
  cases w with
  | nil => cases h
  | cons c w =>
    dsimp only [List.head?_cons, List.tail_cons] at h
    by_cases hmod : parseModifier c = .none
    · simp only [hmod, if_true] at h
      rw [if_neg (by simp), if_neg (by simp [hw])] at h
      cases h
      exact ⟨rfl, rfl⟩
    · rw [if_neg hmod] at h
      rw [List.mem_cons, not_or] at hw
      by_cases hnil : w = []
      · rw [if_pos hnil] at h
        cases h
      · rw [if_neg hnil, if_neg (by simp [hw.2])] at h
        cases h
        refine ⟨?_, rfl⟩
        show (parseModifier c).mark ++ w = c :: w
        rw [parseModifier_mark hmod]
        rfl

/-- The words that are terms. -/
def kept (words : List Text) : List Text := words.filter fun w => (termOf w).isSome

theorem plainTerms_kept (words : List Text) : plainTerms (kept words) = plainTerms words := by
  unfold plainTerms kept
  rw [List.filterMap_filter]
  refine List.filterMap_congr fun w _ => ?_
  cases h : termOf w <;> simp

theorem plainTerms_str : ∀ {words : List Text}, (∀ w ∈ words, ' ' ∉ w) →
    ((plainTerms words).map Prod.fst).map Term.str = kept words
  | [], _ => rfl
  | w :: words, h => by
    obtain ⟨hw, hwords⟩ := List.forall_mem_cons.mp h
    have ih := plainTerms_str hwords
    unfold plainTerms kept at ih ⊢
    cases ht : termOf w with
    | none => rw [List.filterMap_cons_none ht, List.filter_cons_of_neg (by simp [ht]), ih]
    | some r =>
      rw [List.filterMap_cons_some ht, List.filter_cons_of_pos (by simp [ht]), List.map_cons, List.map_cons, ih,
        (termOf_str hw ht).1]

/-! ### The tokens of the canonical spelling -/

/-- A token of the text as it is spelled again; an open one has its words with one space between. -/
def Tok.again (U : CharTable) : Tok → List Tok
  | word w => if (termOf w).isSome then [word w] else []
  | quoted x => if x = [] then [quoted []] else []
  | opened x => [opened (Scan.join ' ' (kept (Scan.words U.isSpace [] ('"' :: x)))).tail]

theorem again_cases {k k' : Tok} (h : k' ∈ k.again U) :
    (∃ w, k = .word w ∧ k' = .word w ∧ (termOf w).isSome = true) ∨ (k = .quoted [] ∧ k' = .quoted []) ∨
      ∃ x, k = .opened x ∧ k' = .opened (Scan.join ' ' (kept (Scan.words U.isSpace [] ('"' :: x)))).tail := by
  cases k with
  | word w =>
    have hw : k' ∈ if (termOf w).isSome then [Tok.word w] else [] := h
    split_ifs at hw with ht
    · exact .inl ⟨w, rfl, List.mem_singleton.mp hw, ht⟩
    · cases hw
  | quoted x =>
    have hx : k' ∈ if x = [] then [Tok.quoted []] else [] := h
    split_ifs at hx with hnil
    · exact .inr (.inl ⟨by rw [hnil], List.mem_singleton.mp hx⟩)
    · cases hx
  | opened x => exact .inr (.inr ⟨x, rfl, List.mem_singleton.mp h⟩)

def spelledToks (U : CharTable) (ks : List Tok) : List Tok :=
  (ks.filterMap Tok.phrase).map .quoted ++ ks.flatMap (Tok.again U)

theorem space_not_mem (h : ∀ c ∈ w, U.isSpace c = false) : ' ' ∉ w := by
  intro hmem
  have := h ' ' hmem
  rw [U.space] at this
  cases this

theorem words_ok : ∀ w ∈ Scan.words U.isSpace [] s, w ≠ [] ∧ (∀ c ∈ w, U.isSpace c = false) ∧ w <:+: s := by
  intro w hw
  have := Scan.words_spec (by simp) w hw
  simpa using this

theorem termOf_quote (v : Text) : termOf ('"' :: v) = some (⟨'"' :: v, .none, false⟩, none) := by
  have hmod : parseModifier '"' = .none := rfl
  unfold termOf
  simp [hmod]

theorem kept_opened (hx : '"' ∉ x) : ∃ v ws,
    kept (Scan.words U.isSpace [] ('"' :: x)) = ('"' :: v) :: ws ∧ '"' ∉ v ∧ ∀ w ∈ ws, '"' ∉ w := by
  have hwords : ∀ (x cur : Text), '"' ∉ x → '"' ∉ cur → ∃ v ws,
      Scan.words U.isSpace ('"' :: cur) x = ('"' :: v) :: ws ∧ '"' ∉ v ∧ ∀ w ∈ ws, '"' ∉ w := by
    intro x
    induction x with
    | nil => exact fun cur _ hcur => ⟨cur, [], rfl, hcur, by simp⟩
    | cons c x ih =>
      intro cur hx hcur
      rw [List.mem_cons, not_or] at hx
      rw [Scan.words_cons, if_neg (List.cons_ne_nil _ _)]
      split_ifs with hc
      · exact ⟨cur, _, rfl, hcur, fun w hw hmem => hx.2 ((words_ok w hw).2.2.subset hmem)⟩
      · exact ih (cur ++ [c]) hx.2 (by simpa [hcur] using hx.1)
  obtain ⟨v, ws, hv, hquote, hws⟩ := hwords x [] hx List.not_mem_nil
  refine ⟨v, kept ws, ?_, hquote, fun w hw => hws w (List.mem_of_mem_filter hw)⟩
  rw [Scan.words_cons, if_neg (by simp [mark_space (U := U) (show '"' ∈ _ by decide)]), List.nil_append, hv]
  unfold kept
  rw [List.filter_cons_of_pos (by rw [termOf_quote]; rfl)]

theorem join_head {v : Text} {ws : List Text} :
    Scan.join ' ' ((c :: v) :: ws) = c :: Scan.join ' ' (v :: ws) := by
  cases ws with
  | nil => rfl
  | cons w ws => rfl

theorem again_opened (hx : '"' ∉ x) :
    '"' :: (Scan.join ' ' (kept (Scan.words U.isSpace [] ('"' :: x)))).tail =
        Scan.join ' ' (kept (Scan.words U.isSpace [] ('"' :: x))) ∧
      '"' ∉ (Scan.join ' ' (kept (Scan.words U.isSpace [] ('"' :: x)))).tail := by
  obtain ⟨v, ws, hk, hv, hws⟩ := kept_opened (U := U) hx
  rw [hk, join_head, List.tail_cons]
  refine ⟨rfl, not_mem_join ?_⟩
  rw [List.forall_mem_cons]
  exact ⟨hv, hws⟩

theorem words_kept : Scan.words U.isSpace [] (Scan.join ' ' (kept (Scan.words U.isSpace [] s))) =
    kept (Scan.words U.isSpace [] s) := by
  refine Scan.words_join U.space fun w hw => ?_
  have := words_ok w (List.mem_of_mem_filter hw)
  exact ⟨this.1, this.2.1⟩

theorem Tok.left_word (h : (Tok.word w).Ok U) : (Tok.word w).left U = [w] :=
  Scan.words_single (fun c hc => (h.2 c hc).1) h.1

theorem Tok.left_empty : (Tok.quoted []).left U = [['"', '"']] :=
  Scan.words_single (w := ['"', '"']) (by
    intro c hc
    rw [show c = '"' by simpa using hc]
    exact mark_space (by decide)) (by simp)

theorem again_left {k : Tok} (h : k.Ok U) : (k.again U).flatMap (Tok.left U) = kept (k.left U) := by
  cases k with
  | word w =>
    rw [Tok.left_word h]
    show (if (termOf w).isSome then [Tok.word w] else []).flatMap (Tok.left U) = _
    unfold kept
    by_cases ht : (termOf w).isSome = true
    · rw [if_pos ht, List.filter_cons_of_pos (p := fun w => (termOf w).isSome) ht, List.flatMap_singleton,
        Tok.left_word h]
      rfl
    · rw [if_neg ht, List.filter_cons_of_neg (p := fun w => (termOf w).isSome) ht]
      rfl
  | quoted x =>
    show (if x = [] then [Tok.quoted []] else []).flatMap (Tok.left U) = _
    by_cases hx : x = []
    · subst hx
      rw [if_pos rfl, List.flatMap_singleton, Tok.left_empty]
      unfold kept
      rw [List.filter_cons_of_pos (by rw [termOf_quote]; rfl)]
      rfl
    · have hleft : (Tok.quoted x).left U = [] := by
        unfold Tok.left
        rw [show (Tok.quoted x).phrase = some x from if_neg hx]
      rw [if_neg hx, hleft]
      rfl
  | opened x =>
    show ([Tok.opened _] : List Tok).flatMap (Tok.left U) = _
    rw [List.flatMap_singleton]
    show Scan.words U.isSpace [] ('"' :: _) = kept (Scan.words U.isSpace [] ('"' :: x))
    rw [(again_opened h).1, words_kept]

theorem again_phrase {k k' : Tok} (h : k' ∈ k.again U) : k'.phrase = none := by
  rcases again_cases h with ⟨w, -, rfl, -⟩ | ⟨-, rfl⟩ | ⟨x, -, rfl⟩
  · rfl
  · rfl
  · rfl

theorem spelledToks_phrase {ks : List Tok} : (spelledToks U ks).filterMap Tok.phrase = ks.filterMap Tok.phrase := by
  unfold spelledToks
  have hrest : (ks.flatMap (Tok.again U)).filterMap Tok.phrase = [] := by
    rw [List.filterMap_eq_nil_iff]
    intro k' hk'
    obtain ⟨k, -, hk⟩ := List.mem_flatMap.mp hk'
    exact again_phrase hk
  rw [List.filterMap_append, hrest, List.append_nil, List.filterMap_map]
  have hsame : ∀ x ∈ ks.filterMap Tok.phrase, (Tok.phrase ∘ Tok.quoted) x = some x := by
    intro x hx
    obtain ⟨k, -, hk⟩ := List.mem_filterMap.mp hx
    exact if_neg (Tok.phrase_some hk).2
  rw [List.filterMap_congr hsame, List.filterMap_some]

theorem phrases_left {ks : List Tok} : ((ks.filterMap Tok.phrase).map Tok.quoted).flatMap (Tok.left U) = [] := by
  rw [List.flatMap_eq_nil_iff]
  intro k hk
  obtain ⟨x, hx, rfl⟩ := List.mem_map.mp hk
  obtain ⟨k', -, hk'⟩ := List.mem_filterMap.mp hx
  unfold Tok.left
  rw [show (Tok.quoted x).phrase = some x from if_neg (Tok.phrase_some hk').2]

theorem spelledToks_left {ks : List Tok} (h : ∀ k ∈ ks, k.Ok U) :
    (spelledToks U ks).flatMap (Tok.left U) = kept (ks.flatMap (Tok.left U)) := by
  have hagain : ∀ {ks : List Tok}, (∀ k ∈ ks, k.Ok U) →
      (ks.flatMap (Tok.again U)).flatMap (Tok.left U) = kept (ks.flatMap (Tok.left U)) := by
    intro ks
    induction ks with
    | nil => exact fun _ => rfl
    | cons k ks ih =>
      intro h
      obtain ⟨hk, hks⟩ := List.forall_mem_cons.mp h
      rw [List.flatMap_cons, List.flatMap_append, ih hks, again_left hk, List.flatMap_cons]
      unfold kept
      rw [List.filter_append]
  unfold spelledToks
  rw [List.flatMap_append, phrases_left, List.nil_append, hagain h]

theorem again_ok {k k' : Tok} (h : k.Ok U) (hk : k' ∈ k.again U) : k'.Ok U := by
  rcases again_cases hk with ⟨w, rfl, rfl, -⟩ | ⟨-, rfl⟩ | ⟨x, rfl, rfl⟩
  · exact h
  · exact List.not_mem_nil
  · exact (again_opened h).2

end Terms

end Query

end Mantle
