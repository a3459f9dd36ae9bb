import Mantle.Search.QueryTerms

/-!
# Mantle.Search.Spelling — the canonical spelling of a query

A query is spelled as its terms, its filters and its controls, and mostly reads as the same query again; no modifier
before a phrase is kept.
-/

namespace Mantle

namespace Query

attribute [local instance (1100)] List.decidableBAll

variable {F : List FieldFilter} {cs : List (Text × Text)} {f : FieldFilter} {s : Text}

/-! ### The canonical spelling is read again -/

section Again

variable {U : CharTable}

theorem again_pairwise {k : Tok} {R : Tok → Tok → Prop} : (k.again U).Pairwise R := by
  cases k with
  | word w =>
    show (if (termOf w).isSome then [Tok.word w] else []).Pairwise R
    split_ifs
    · exact List.pairwise_singleton _ _
    · exact List.Pairwise.nil
  | quoted x =>
    show (if x = [] then [Tok.quoted []] else []).Pairwise R
    split_ifs
    · exact List.pairwise_singleton _ _
    · exact List.Pairwise.nil
  | opened x => exact List.pairwise_singleton _ _

theorem Aligned.spelled {ks : List Tok} (h : Aligned U ks) : Aligned U (spelledToks U ks) := by
  have hphrase : ∀ x ∈ ks.filterMap Tok.phrase, Tok.quoted x ∈ ks ∧ x ≠ [] := by
    intro x hx
    obtain ⟨k, hk, hkx⟩ := List.mem_filterMap.mp hx
    obtain ⟨rfl, hne⟩ := Tok.phrase_some hkx
    exact ⟨hk, hne⟩
  unfold spelledToks
  refine ⟨?_, ?_, ?_⟩
  · intro k hk
    rcases List.mem_append.mp hk with hk | hk
    · obtain ⟨x, hx, rfl⟩ := List.mem_map.mp hk
      exact h.ok _ (hphrase x hx).1
    · obtain ⟨k', hk', hagain⟩ := List.mem_flatMap.mp hk
      exact again_ok (h.ok k' hk') hagain
  · rw [List.pairwise_append]
    refine ⟨?_, ?_, ?_⟩
    · rw [List.pairwise_map]
      exact List.pairwise_of_forall fun _ _ => rfl
    · rw [List.pairwise_flatMap]
      refine ⟨fun k _ => again_pairwise, h.last.imp fun {k _} hk a ha _ _ => ?_⟩
      rcases again_cases ha with ⟨w, -, rfl, -⟩ | ⟨-, rfl⟩ | ⟨x, rfl, -⟩
      · rfl
      · rfl
      · cases hk
    · intro a ha _ _
      obtain ⟨x, -, rfl⟩ := List.mem_map.mp ha
      rfl
  · have hset : ∀ x, x ≠ [] → ∀ t, Settles (Tok.quoted x).text t := by
      intro x hx t heq
      have := congrArg List.length heq
      simp only [Tok.text, List.length_append, List.length_cons, List.length_nil] at this
      exact absurd (List.length_eq_zero_iff.mp (by omega)) hx
    rw [List.pairwise_append]
    refine ⟨?_, ?_, ?_⟩
    · rw [List.pairwise_map]
      exact List.pairwise_iff_forall_sublist.mpr fun {x y} hxy => hset x (hphrase x (hxy.subset (by simp))).2 _
    · rw [List.pairwise_flatMap]
      refine ⟨fun k _ => again_pairwise, (h.last.and h.pairs).imp fun {k k'} hk a ha b hb heq => ?_⟩
      have hempty : k.text = ['"', '"'] := by
        rcases again_cases ha with ⟨w, rfl, rfl, -⟩ | ⟨rfl, rfl⟩ | ⟨x, rfl, -⟩
        · exact heq
        · exact heq
        · cases hk.1
      have hhead := hk.2 hempty
      rcases again_cases hb with ⟨w, rfl, rfl, -⟩ | ⟨rfl, -⟩ | ⟨x, rfl, -⟩
      · exact hhead
      · exact absurd rfl hhead
      · exact absurd rfl hhead
    · intro a ha b _
      obtain ⟨x, hx, rfl⟩ := List.mem_map.mp ha
      exact hset x (hphrase x hx).2 _

/-- The words a token is spelled with. -/
def Tok.shown (U : CharTable) (k : Tok) : List Text :=
  match k.phrase with
  | some _ => [k.text]
  | none => Scan.words U.isSpace [] k.text

theorem shown_spelled {ks : List Tok} (h : ∀ k ∈ ks, k.Ok U) {k : Tok} (hk : k ∈ spelledToks U ks) :
    k.shown U ≠ [] ∧ Scan.join ' ' (k.shown U) = k.text := by
  have hsingle : ∀ w : Text, (∀ c ∈ w, U.isSpace c = false) → w ≠ [] →
      Scan.words U.isSpace [] w ≠ [] ∧ Scan.join ' ' (Scan.words U.isSpace [] w) = w := by
    intro w hw hne
    rw [Scan.words_single hw hne]
    exact ⟨by simp, rfl⟩
  unfold spelledToks at hk
  unfold Tok.shown
  rcases List.mem_append.mp hk with hk | hk
  · obtain ⟨x, hx, rfl⟩ := List.mem_map.mp hk
    obtain ⟨k', -, hk'⟩ := List.mem_filterMap.mp hx
    rw [show (Tok.quoted x).phrase = some x from if_neg (Tok.phrase_some hk').2]
    exact ⟨by simp, rfl⟩
  · obtain ⟨k', hk', hagain⟩ := List.mem_flatMap.mp hk
    rw [again_phrase hagain]
    rcases again_cases hagain with ⟨w, rfl, rfl, -⟩ | ⟨-, rfl⟩ | ⟨x, rfl, rfl⟩
    · have hw := h _ hk'
      exact hsingle w (fun c hc => (hw.2 c hc).1) hw.1
    · refine hsingle ['"', '"'] (fun c hc => ?_) (by simp)
      rw [show c = '"' by simpa using hc]
      exact mark_space (by decide)
    · have hopen := (again_opened (U := U) (h _ hk')).1
      obtain ⟨v, ws, hkept, -⟩ := kept_opened (U := U) (h _ hk' : '"' ∉ x)
      show Scan.words U.isSpace [] ('"' :: _) ≠ [] ∧ Scan.join ' ' (Scan.words U.isSpace [] ('"' :: _)) = '"' :: _
      rw [hopen, words_kept]
      exact ⟨by rw [hkept]; simp, rfl⟩

theorem join_shown {Z : List Text} : ∀ {L : List Tok},
    (∀ k ∈ L, k.shown U ≠ [] ∧ Scan.join ' ' (k.shown U) = k.text) →
    Scan.join ' ' (L.flatMap (Tok.shown U) ++ Z) = Scan.join ' ' (L.map Tok.text ++ Z)
  | [], _ => rfl
  | k :: L, h => by
    obtain ⟨hk, hL⟩ := List.forall_mem_cons.mp h
    have ih := join_shown (Z := Z) hL
    rw [List.flatMap_cons, List.append_assoc, List.map_cons, List.cons_append]
    have hiff : L.flatMap (Tok.shown U) ++ Z = [] ↔ L.map Tok.text ++ Z = [] := by
      cases L with
      | nil => rfl
      | cons k' L => simp [(hL k' List.mem_cons_self).1]
    by_cases hrest : L.map Tok.text ++ Z = []
    · rw [hiff.mpr hrest, hrest, List.append_nil, hk.2]
      rfl
    · rw [Scan.join_append hk.1 (mt hiff.mp hrest), Scan.join_cons hrest, hk.2, ih]

theorem terms_str {ks : List Tok} :
    (((ks.filterMap Tok.phrase).map fun x => (⟨x, .none, true⟩ : Term)) ++
        (plainTerms (ks.flatMap (Tok.left U))).map Prod.fst).map Term.str =
      (ks.filterMap Tok.phrase).map (fun x => (Tok.quoted x).text) ++ kept (ks.flatMap (Tok.left U)) := by
  have hspace : ∀ w ∈ ks.flatMap (Tok.left U), ' ' ∉ w := by
    intro w hw
    obtain ⟨k, -, hw⟩ := List.mem_flatMap.mp hw
    unfold Tok.left at hw
    split at hw
    · cases hw
    · exact space_not_mem (words_ok w hw).2.1
  rw [List.map_append, plainTerms_str hspace, List.map_map]
  rfl

theorem terms_shown {ks : List Tok} (h : ∀ k ∈ ks, k.Ok U) :
    (ks.filterMap Tok.phrase).map (fun x => (Tok.quoted x).text) ++ kept (ks.flatMap (Tok.left U)) =
      (spelledToks U ks).flatMap (Tok.shown U) := by
  have hagain : ∀ {ks : List Tok}, (∀ k ∈ ks, k.Ok U) →
      (ks.flatMap (Tok.again U)).flatMap (Tok.shown U) = kept (ks.flatMap (Tok.left U)) := by
    intro ks hks
    have hleft := spelledToks_left hks
    unfold spelledToks at hleft
    rw [List.flatMap_append] at hleft
    rw [phrases_left, List.nil_append] at hleft
    rw [← hleft]
    refine List.flatMap_congr fun k hk => ?_
    obtain ⟨k', -, hagain⟩ := List.mem_flatMap.mp hk
    unfold Tok.shown Tok.left
    rw [again_phrase hagain]
  have hone : ∀ x ∈ ks.filterMap Tok.phrase, (Tok.quoted x).shown U = [(Tok.quoted x).text] := by
    intro x hx
    obtain ⟨k', -, hk'⟩ := List.mem_filterMap.mp hx
    unfold Tok.shown
    rw [show (Tok.quoted x).phrase = some x from if_neg (Tok.phrase_some hk').2]
  unfold spelledToks
  rw [List.flatMap_append, hagain h, List.flatMap_map, List.flatMap_congr hone, ← List.map_eq_flatMap]

end Again

section Body

variable {U : CharTable}

/-- The ends are no spaces. -/
structure Edged (U : CharTable) (s : Text) : Prop where
  ne : s ≠ []
  head : ∀ c ∈ s.head?, U.isSpace c = false
  last : ∀ c ∈ s.getLast?, U.isSpace c = false

theorem edged_run (hne : s ≠ []) (h : ∀ c ∈ s, U.isSpace c = false) : Edged U s :=
  ⟨hne, fun c hc => h c (List.mem_of_mem_head? hc), fun c hc => h c (List.mem_of_mem_getLast? hc)⟩

theorem Edged.join : ∀ {l : List Text}, (∀ s ∈ l, Edged U s) → l ≠ [] → Edged U (Scan.join ' ' l)
  | [s], h, _ => h s List.mem_cons_self
  | s :: t :: l, h, _ => by
    obtain ⟨hs, hl⟩ := List.forall_mem_cons.mp h
    have ih := Edged.join (l := t :: l) hl (by simp)
    show Edged U (s ++ ' ' :: Scan.join ' ' (t :: l))
    refine ⟨by simp [hs.ne], ?_, ?_⟩
    · rw [List.head?_append_of_ne_nil _ hs.ne]
      exact hs.head
    · obtain ⟨c, r, hcr⟩ := List.exists_cons_of_ne_nil ih.ne
      rw [List.getLast?_append_of_ne_nil _ (by simp), hcr, List.getLast?_cons_cons, ← hcr]
      exact ih.last

theorem hasControl_join : ∀ {l : List Text}, HasControl U (Scan.join ' ' l) → ∃ s ∈ l, HasControl U s
  | [], h => by
    obtain ⟨a, b, heq, n, c, b', rfl, -⟩ := h
    have := congrArg List.length heq
    simp [Scan.join] at this
  | [s], h => ⟨s, List.mem_cons_self, h⟩
  | s :: t :: l, h => by
    rcases (hasControl_space U.space).mp h with h | h
    · exact ⟨s, List.mem_cons_self, h⟩
    · obtain ⟨u, hu, hc⟩ := hasControl_join (l := t :: l) h
      exact ⟨u, List.mem_cons_of_mem _ hu, hc⟩

theorem hasControl_after {p : Text} (h : HasControl U (p ++ s)) (hp : '@' ∉ p) : HasControl U s := by
  obtain ⟨a, b, heq, hb⟩ := h
  rcases List.append_eq_append_iff.mp heq with ⟨t, rfl, ht⟩ | ⟨t, rfl, ht⟩
  · exact ⟨t, b, ht, hb⟩
  · cases t with
    | nil =>
      rw [List.nil_append] at ht
      exact ⟨[], s, rfl, ht ▸ hb⟩
    | cons c t =>
      obtain ⟨n, d, b', hb', -⟩ := hb
      have hc : c = '@' := by
        have := congrArg List.head? (ht.symm.trans hb')
        simpa using this
      exact absurd (by simp [hc]) hp

/-- A control that is written but for what follows its colon. -/
def EndsInName (U : CharTable) (s : Text) : Prop :=
  ∃ a n, s = a ++ '@' :: n ++ [':'] ∧ n ≠ [] ∧ ∀ d ∈ n, isWord U d = true

theorem hasControl_quote {v : Text} (h : HasControl U (v ++ ['"'])) : HasControl U v ∨ EndsInName U v := by
  obtain ⟨a, b, heq, n, c, b', rfl, hn, hw, hc⟩ := h
  rcases List.eq_nil_or_concat b' with rfl | ⟨b'', d, rfl⟩
  · right
    have h2 : v ++ ['"'] = (a ++ '@' :: n ++ [':']) ++ [c] := by simpa using heq
    exact ⟨a, n, (List.append_inj' h2 rfl).1, hn, hw⟩
  · left
    have h2 : v ++ ['"'] = (a ++ ('@' :: n ++ ':' :: c :: b'')) ++ [d] := by simpa using heq
    exact ⟨a, _, (List.append_inj' h2 rfl).1, n, c, b'', rfl, hn, hw, hc⟩

theorem field_run (h : Canon U f) :
    ∀ c ∈ negText f.negated ++ f.field, U.isSpace c = false ∧ c ≠ '"' ∧ c ≠ '@' := by
  obtain ⟨-, hchars, -⟩ := spelledFields_letters f.field h.field
  intro c hc
  rcases List.mem_append.mp hc with hc | hc
  · have : c = '!' := by
      unfold negText at hc
      split_ifs at hc
      · exact List.mem_singleton.mp hc
      · cases hc
    rw [this]
    exact ⟨mark_space (by decide), by decide, by decide⟩
  · have hlow := hchars c hc
    refine ⟨?_, ?_, ?_⟩
    · rcases hlow with h | h
      · exact U.alnum_space c (U.letters c h)
      · rw [h]
        exact U.underscore
    · rintro rfl
      revert hlow
      decide
    · rintro rfl
      revert hlow
      decide

theorem mark_run {op : FieldOperator} : ∀ c ∈ ':' :: op.mark, U.isSpace c = false ∧ c ≠ '"' ∧ c ≠ '@' := by
  intro c hc
  have hmem : c ∈ [':', '>', '<', '~', '='] := by
    cases op <;> simp [FieldOperator.mark] at hc ⊢ <;> tauto
  have hspace : U.isSpace c = false := by
    refine mark_space ?_
    simp only [List.mem_cons, List.not_mem_nil, or_false] at hmem ⊢
    tauto
  refine ⟨hspace, ?_, ?_⟩
  · rintro rfl
    revert hmem
    decide
  · rintro rfl
    revert hmem
    decide

theorem str_plain (hop : f.operator ≠ .exact) :
    f.str = (negText f.negated ++ f.field) ++ ':' :: f.operator.mark ++ f.value := by
  unfold FieldFilter.str negText
  dsimp only
  rw [if_neg hop]

theorem str_exact (hop : f.operator = .exact) :
    f.str = (negText f.negated ++ f.field ++ [':', '=']) ++ ('"' :: f.value ++ ['"']) := by
  unfold FieldFilter.str negText
  dsimp only
  rw [if_pos hop]
  simp

theorem exact_word (h : Canon U f) : (Tok.word (negText f.negated ++ f.field ++ [':', '='])).Ok U := by
  refine ⟨by simp, fun c hc => ?_⟩
  rcases List.mem_append.mp hc with hc | hc
  · exact ⟨(field_run h c hc).1, (field_run h c hc).2.1⟩
  · have := mark_run (U := U) c (show c ∈ ':' :: FieldOperator.mark .exact from hc)
    exact ⟨this.1, this.2.1⟩

theorem plain_word (h : Canon U f) (hop : f.operator ≠ .exact) : (Tok.word f.str).Ok U := by
  rw [str_plain hop]
  refine ⟨by simp, fun c hc => ?_⟩
  rcases List.mem_append.mp hc with hc | hc
  · rcases List.mem_append.mp hc with hc | hc
    · exact ⟨(field_run h c hc).1, (field_run h c hc).2.1⟩
    · exact ⟨(mark_run c hc).1, (mark_run (U := U) c hc).2.1⟩
  · refine ⟨h.run hop c hc, ?_⟩
    rintro rfl
    exact h.quote hc

theorem reads_filter (h : Canon U f) : Reads U f.str f.toks := by
  unfold FieldFilter.toks
  by_cases hop : f.operator = .exact
  · rw [if_pos hop, str_exact hop]
    exact reads_word_quoted (exact_word h) h.quote
  · rw [if_neg hop]
    exact reads_word (plain_word h hop)

theorem edged_filter (h : Canon U f) : Edged U f.str := by
  by_cases hop : f.operator = .exact
  · have hw := exact_word h
    rw [str_exact hop]
    refine ⟨by simp, ?_, ?_⟩
    · rw [List.head?_append_of_ne_nil _ hw.1]
      exact fun c hc => (hw.2 c (List.mem_of_mem_head? hc)).1
    · rw [← List.append_assoc, List.getLast?_concat]
      rintro c ⟨⟩
      exact mark_space (by decide)
  · have hw := plain_word h hop
    exact edged_run hw.1 fun c hc => (hw.2 c hc).1

/-- **No control is written in a filter**, but where a quoted value ends in a name. -/
theorem filter_quiet (h : Canon U f) (hvalue : ¬HasControl U f.value)
    (hname : f.operator = .exact → ¬EndsInName U f.value) : ¬HasControl U f.str := by
  intro hc
  by_cases hop : f.operator = .exact
  · have hat : '@' ∉ negText f.negated ++ f.field ++ [':', '=', '"'] := by
      intro hmem
      rcases List.mem_append.mp hmem with hmem | hmem
      · exact (field_run h _ hmem).2.2 rfl
      · revert hmem
        decide
    rw [str_exact hop, show negText f.negated ++ f.field ++ [':', '='] ++ ('"' :: f.value ++ ['"']) =
      (negText f.negated ++ f.field ++ [':', '=', '"']) ++ (f.value ++ ['"']) by simp] at hc
    rcases hasControl_quote (hasControl_after hc hat) with hc | hc
    · exact hvalue hc
    · exact hname hop hc
  · have hat : '@' ∉ negText f.negated ++ f.field ++ ':' :: f.operator.mark := by
      intro hmem
      rcases List.mem_append.mp hmem with hmem | hmem
      · exact (field_run h _ hmem).2.2 rfl
      · exact (mark_run (U := U) _ hmem).2.2 rfl
    rw [str_plain hop] at hc
    exact hvalue (hasControl_after hc hat)

theorem split_opened : ∀ {L : List Tok}, L.Pairwise (fun k _ => k.isOpened = false) →
    (∀ k ∈ L, k.isOpened = false) ∨ ∃ L₀ x, L = L₀ ++ [.opened x] ∧ ∀ k ∈ L₀, k.isOpened = false
  | [], _ => .inl (by simp)
  | [.opened x], _ => .inr ⟨[], x, rfl, by simp⟩
  | [.word w], _ => .inl (by simp [Tok.isOpened])
  | [.quoted x], _ => .inl (by simp [Tok.isOpened])
  | k :: k' :: L, h => by
    obtain ⟨hk, hL⟩ := List.pairwise_cons.mp h
    have hk0 := hk k' List.mem_cons_self
    rcases split_opened hL with hnone | ⟨L₀, x, heq, hL₀⟩
    · exact .inl (List.forall_mem_cons.mpr ⟨hk0, hnone⟩)
    · exact .inr ⟨k :: L₀, x, by rw [heq]; rfl, List.forall_mem_cons.mpr ⟨hk0, hL₀⟩⟩

theorem reads_tok {k : Tok} (h : k.Ok U) (ho : k.isOpened = false) : Reads U k.text [k.text] := by
  cases k with
  | word w => exact reads_word h
  | quoted x => exact reads_quoted h
  | opened x => cases ho

/-- **Tokens and filters are read back from the text they are spelled in**, where no open token swallows a filter. -/
theorem tokenize_spelled {L : List Tok} (hL : Aligned U L) (hF : ∀ f ∈ F, Canon U f)
    (hopen : (∃ k ∈ L, k.isOpened = true) → F = []) :
    tokenize U [] false (Scan.join ' ' (L.map Tok.text ++ F.map FieldFilter.str)) =
      L.map Tok.text ++ F.flatMap FieldFilter.toks := by
  have hpieces : ∀ L : List Tok, (∀ k ∈ L, k.Ok U ∧ k.isOpened = false) →
      ∀ p ∈ L.map (fun k => (k.text, [k.text])) ++ F.map (fun f => (f.str, f.toks)), Reads U p.1 p.2 := by
    intro L hL p hp
    rcases List.mem_append.mp hp with hp | hp
    · obtain ⟨k, hk, rfl⟩ := List.mem_map.mp hp
      exact reads_tok (hL k hk).1 (hL k hk).2
    · obtain ⟨f, hf, rfl⟩ := List.mem_map.mp hp
      exact reads_filter (hF f hf)
  have hfst : ∀ L : List Tok, (L.map (fun k => (k.text, [k.text])) ++ F.map (fun f => (f.str, f.toks))).map Prod.fst =
      L.map Tok.text ++ F.map FieldFilter.str := by
    intro L
    rw [List.map_append, List.map_map, List.map_map]
    rfl
  have hsnd : ∀ L : List Tok, (L.map (fun k => (k.text, [k.text])) ++ F.map (fun f => (f.str, f.toks))).flatMap Prod.snd =
      L.map Tok.text ++ F.flatMap FieldFilter.toks := by
    intro L
    rw [List.flatMap_append, List.flatMap_map, List.flatMap_map, ← List.map_eq_flatMap]
  rcases split_opened hL.last with hnone | ⟨L₀, x, rfl, hL₀⟩
  · have hjoin := tokenize_join (r := []) (hpieces L fun k hk => ⟨hL.ok k hk, hnone k hk⟩)
    rw [hfst, hsnd, if_pos rfl, List.append_nil] at hjoin
    rw [hjoin]
    simp [tokenize]
  · have hnil := hopen ⟨.opened x, by simp, rfl⟩
    have hx : '"' ∉ x := hL.ok (.opened x) (by simp)
    have hjoin := tokenize_join (r := '"' :: x)
      (hpieces L₀ fun k hk => ⟨hL.ok k (List.mem_append_left _ hk), hL₀ k hk⟩)
    rw [hfst, hsnd, if_neg (by simp), tokenize_opened hx, hnil] at hjoin
    rw [hnil]
    simpa [Tok.text] using hjoin

end Body

/-! ### What the spelling means -/

section Meaning

variable (U : CharTable)

structure Same (p p' : ParsedQuery) : Prop where
  terms : p.terms.Perm p'.terms
  filters : p.filters = p'.filters
  controls : p.controls.Perm p'.controls

/-- A modifier is written before a quoted phrase: it begins a word, and a quote that something closes follows it. -/
def ModifiedPhrase (q : Text) (m : Char) (x : Text) : Prop :=
  ∃ pre post, q = pre ++ m :: '"' :: x ++ '"' :: post ∧ m ∈ ['+', '!', '~', '='] ∧ x ≠ [] ∧ '"' ∉ x ∧
    pre.count '"' % 2 = 0 ∧ ∀ c ∈ pre.getLast?, U.isSpace c = true

/-- **The canonical spelling of a query means the same query**, and a modifier before a phrase is kept on it. -/
structure MeansTheSame (q : Text) : Prop where
  again : Same (parse U (parse U q).str) (parse U q)
  modifiers : ∀ m x, ModifiedPhrase U q m x → ⟨x, parseModifier m, true⟩ ∈ (parse U q).terms

def tokensOf (q : Text) : List Text := tokenize U [] false (extractControls U q).1

def LeftOpen (s : Text) : Prop := s.head? = some '"' ∧ '"' ∉ s.tail

/-- What is spelled is not read as something else: a control's name stays one when lowered; no value after `:=` ends in
`@name:`; no quote follows an empty pair; and where a quote is left open no token is a filter. -/
structure Settled (q : Text) : Prop where
  names : ∀ m ∈ findControls U q, ∀ c ∈ U.lower m.1, isWord U c = true
  values : ∀ f ∈ (extractFilters U false (tokensOf U q)).2, f.operator = .exact → ¬EndsInName U f.value
  pairs : (extractFilters U false (tokensOf U q)).1.Pairwise Settles
  opened : (∃ s ∈ tokensOf U q, LeftOpen s) → (extractFilters U false (tokensOf U q)).2 = []

end Meaning

section Main

variable {U : CharTable} {q : Text}

theorem parse_blank (h : Scan.strip U.isSpace q = []) : parse U q = ⟨[], [], [], [], q⟩ := by
  unfold parse
  rw [if_pos h]

theorem parse_eq (h : Scan.strip U.isSpace q ≠ []) : parse U q =
    ⟨(extractTerms U (Scan.join ' ' (extractFilters U false (tokensOf U q)).1)).1,
      (extractFilters U false (tokensOf U q)).2, (extractControls U q).2,
      (extractTerms U (Scan.join ' ' (extractFilters U false (tokensOf U q)).1)).2, Scan.strip U.isSpace q⟩ := by
  unfold parse
  rw [if_neg h]
  rfl

theorem strip_blank (h : Scan.strip U.isSpace s = []) : ∀ c ∈ s, U.isSpace c = true := by
  unfold Scan.strip at h
  rw [List.rdropWhile_eq_nil_iff] at h
  refine List.dropWhile_eq_nil_iff.mp ?_
  by_contra hne
  obtain ⟨c, r, hcr⟩ := List.exists_cons_of_ne_nil hne
  have hc := h c (by rw [hcr]; exact List.mem_cons_self)
  have := List.head?_dropWhile_not U.isSpace s
  rw [hcr] at this
  rw [List.head?_cons] at this
  rw [this] at hc
  cases hc

structure Read (U : CharTable) (q : Text) (ks : List Tok) (F : List FieldFilter) (cs : List (Text × Text)) : Prop where
  aligned : Aligned U ks
  left : ∀ k ∈ ks, Left U k
  texts : ∀ k ∈ ks, ¬HasControl U k.text
  filters : ∀ f ∈ F, Canon U f ∧ ¬HasControl U f.str
  opened : (∃ k ∈ ks, k.isOpened = true) → F = []
  controls : ∀ c ∈ cs, Recorded U c
  names : (cs.map Prod.fst).Nodup
  parsed : (parse U q).terms = ((ks.filterMap Tok.phrase).map fun x => ⟨x, .none, true⟩) ++
      (plainTerms (ks.flatMap (Tok.left U))).map Prod.fst ∧ (parse U q).filters = F ∧ (parse U q).controls = cs

theorem read_of_settled (h : Settled U q) : ∃ ks F cs, Read U q ks F cs := by
  by_cases hblank : Scan.strip U.isSpace q = []
  · refine ⟨[], [], [], ⟨by simp, List.Pairwise.nil, List.Pairwise.nil⟩, by simp, by simp, by simp, fun _ => rfl, by simp,
      by simp, ?_⟩
    rw [parse_blank hblank]
    exact ⟨rfl, rfl, rfl⟩
  · have hquiet := extractControls_quiet (U := U) q
    obtain ⟨hrec, hnames⟩ := extractControls_recorded h.names
    obtain ⟨ts, hts, hlast, hok⟩ := tokenize_spec (U := U) (extractControls U q).1 [] false (by simp) (by simp)
    rw [List.nil_append] at hok
    obtain ⟨ks, hsub, hkept, hleft, hfs⟩ := extractFilters_spec ts false fun t ht => (hok t ht).1
    have hcontrol : ∀ s, s <:+: (extractControls U q).1 → ¬HasControl U s := fun s hs hc => hquiet (hc.of_infix hs)
    have htokens : tokensOf U q = ts.map Tok.text := hts
    rw [← htokens] at hkept hfs
    have haligned : Aligned U ks := by
      refine ⟨fun k hk => (hok k (hsub.subset hk)).1, hlast.sublist hsub, ?_⟩
      have := h.pairs
      rwa [hkept, List.pairwise_map] at this
    refine ⟨ks, (extractFilters U false (tokensOf U q)).2, (extractControls U q).2, haligned, hleft,
      fun k hk => hcontrol _ (hok k (hsub.subset hk)).2, ?_, ?_, hrec, hnames, ?_⟩
    · intro f hf
      obtain ⟨hcanon, t, ht, hvalue, -⟩ := hfs f hf
      exact ⟨hcanon, filter_quiet hcanon (hcontrol _ (hvalue.trans (hok t ht).2)) (h.values f hf)⟩
    · rintro ⟨k, hk, hopen⟩
      refine h.opened ⟨k.text, by rw [htokens]; exact List.mem_map_of_mem (hsub.subset hk), ?_⟩
      cases k with
      | word w => cases hopen
      | quoted x => cases hopen
      | opened x =>
        have hx : '"' ∉ x := (hok _ (hsub.subset hk)).1
        exact ⟨rfl, hx⟩
    · rw [parse_eq hblank, hkept, extractTerms_tokens haligned]
      exact ⟨rfl, rfl, rfl⟩

theorem str_eq {p : ParsedQuery} (hterms : ∀ t ∈ p.terms, Edged U t.str) (hfilters : ∀ f ∈ p.filters, Edged U f.str) :
    ∃ body, body = Scan.join ' ' (p.terms.map Term.str ++ p.filters.map FieldFilter.str) ∧
      (∀ c ∈ body.head?, U.isSpace c = false) ∧ (∀ c ∈ body.getLast?, U.isSpace c = false) ∧
      (body = [] → p.terms = [] ∧ p.filters = []) ∧
      p.str = Scan.join ' ' ((if body = [] then [] else [body]) ++ p.controls.map controlStr) := by
  have hedged : ∀ s ∈ p.terms.map Term.str ++ p.filters.map FieldFilter.str, Edged U s := by
    intro s hs
    rcases List.mem_append.mp hs with hs | hs
    · obtain ⟨t, ht, rfl⟩ := List.mem_map.mp hs
      exact hterms t ht
    · obtain ⟨f, hf, rfl⟩ := List.mem_map.mp hs
      exact hfilters f hf
  refine ⟨_, rfl, ?_⟩
  unfold ParsedQuery.str
  by_cases ht : p.terms = []
  · by_cases hf : p.filters = []
    · simp [ht, hf, Scan.join]
    · have hbody := Edged.join hedged (by simp [hf])
      refine ⟨hbody.head, hbody.last, fun hnil => absurd hnil hbody.ne, ?_⟩
      rw [if_neg hbody.ne, if_pos ht, if_neg hf, ht]
      rfl
  · have hbody := Edged.join hedged (by simp [ht])
    refine ⟨hbody.head, hbody.last, fun hnil => absurd hnil hbody.ne, ?_⟩
    rw [if_neg hbody.ne, if_neg ht]
    by_cases hf : p.filters = []
    · rw [if_pos hf, hf]
      simp
    · have hboth := Scan.join_append (c := ' ') (k := p.terms.map Term.str) (l := p.filters.map FieldFilter.str)
        (by simpa using ht) (by simpa using hf)
      rw [if_neg hf, hboth]
      cases p.controls with
      | nil => rfl
      | cons c cs => simp [Scan.join]

theorem edged_control {c : Text × Text} (h : Recorded U c) : Edged U (controlStr c) := by
  refine edged_run (by simp [controlStr]) fun d hd => ?_
  simp only [controlStr, List.cons_append, List.mem_cons, List.mem_append] at hd
  rcases hd with rfl | hd | rfl | hd
  · exact mark_space (by decide)
  · exact isWord_space (h.word d hd)
  · exact mark_space (by decide)
  · exact h.run d hd

theorem Read.pieces {ks : List Tok} (h : Read U q ks F cs) :
    ∀ s ∈ (parse U q).terms.map Term.str, Edged U s ∧ ¬HasControl U s := by
  rw [h.parsed.1, terms_str]
  intro s hs
  rcases List.mem_append.mp hs with hs | hs
  · obtain ⟨x, hx, rfl⟩ := List.mem_map.mp hs
    obtain ⟨k, hk, hkx⟩ := List.mem_filterMap.mp hx
    obtain ⟨rfl, -⟩ := Tok.phrase_some hkx
    have hmark : U.isSpace '"' = false := mark_space (by decide)
    refine ⟨⟨by simp [Tok.text], by rintro c ⟨⟩; exact hmark, ?_⟩, h.texts _ hk⟩
    rw [show (Tok.quoted x).text = '"' :: x ++ ['"'] from rfl, List.getLast?_concat]
    rintro c ⟨⟩
    exact hmark
  · obtain ⟨k, hk, hw⟩ := List.mem_flatMap.mp (List.mem_of_mem_filter hs)
    unfold Tok.left at hw
    split at hw
    · cases hw
    · obtain ⟨hne, hrun, hin⟩ := words_ok s hw
      exact ⟨edged_run hne hrun, fun hc => h.texts k hk (hc.of_infix hin)⟩

theorem extractFilters_spelled {ks : List Tok} (hok : ∀ k ∈ ks, k.Ok U) (hleft : ∀ k ∈ ks, Left U k)
    (hF : ∀ f ∈ F, Canon U f) :
    extractFilters U false ((spelledToks U ks).map Tok.text ++ F.flatMap FieldFilter.toks) =
      ((spelledToks U ks).map Tok.text, F) := by
  have hquotes : ∀ s ∈ ((ks.filterMap Tok.phrase).map Tok.quoted).map Tok.text, s.head? = some '"' := by
    intro s hs
    obtain ⟨k, hk, rfl⟩ := List.mem_map.mp hs
    obtain ⟨x, -, rfl⟩ := List.mem_map.mp hk
    rfl
  have hagain : ∀ k ∈ ks.flatMap (Tok.again U), Left U k ∧ ¬HasContent (some k.text) := by
    intro k' hk'
    obtain ⟨k, hk, hkk⟩ := List.mem_flatMap.mp hk'
    constructor
    · rcases again_cases hkk with ⟨w, rfl, rfl, -⟩ | ⟨-, rfl⟩ | ⟨x, -, rfl⟩
      · exact hleft _ hk
      · exact fun next _ => filterAt_quote rfl next
      · exact fun next _ => filterAt_quote rfl next
    · rintro ⟨token, ⟨⟩, hends, hne⟩
      obtain ⟨x, rfl, hx⟩ := Tok.not_quoteEnds (again_ok (hok k hk) hkk) hends hne
      have := again_phrase hkk
      rw [show (Tok.quoted x).phrase = some x from if_neg hx] at this
      cases this
  unfold spelledToks
  rw [List.map_append, List.append_assoc, extractFilters_quotes hquotes, extractFilters_left (toks_head hF) hagain,
    extractFilters_toks hF, List.append_nil]

theorem Read.again {ks : List Tok} (h : Read U q ks F cs) :
    Same (parse U (parse U q).str) (parse U q) := by
  obtain ⟨hterms, hfilters, hcontrols⟩ := h.parsed
  have hpieces := h.pieces
  obtain ⟨body, hbody, hhead, hlast, hnil, hstr⟩ := str_eq (U := U) (p := parse U q)
    (fun t ht => (hpieces _ (List.mem_map_of_mem ht)).1)
    (fun f hf => edged_filter (h.filters f (hfilters ▸ hf)).1)
  have hquiet : ¬HasControl U body := by
    rw [hbody]
    intro hc
    obtain ⟨s, hs, hc⟩ := hasControl_join hc
    rcases List.mem_append.mp hs with hs | hs
    · exact (hpieces s hs).2 hc
    · obtain ⟨f, hf, rfl⟩ := List.mem_map.mp hs
      exact (h.filters f (hfilters ▸ hf)).2 hc
  have hcut : extractControls U (parse U q).str = (body, cs) := by
    rw [hstr, hcontrols]
    exact extractControls_spelled hquiet hhead hlast h.controls h.names
  by_cases hblank : Scan.strip U.isSpace (parse U q).str = []
  · -- nothing is spelled, and nothing was read
    have hnone : (if body = [] then [] else [body]) ++ (parse U q).controls.map controlStr = [] := by
      by_contra hne
      have hedged := Edged.join (U := U) (l := (if body = [] then [] else [body]) ++ (parse U q).controls.map controlStr)
        (by
          intro s hs
          rcases List.mem_append.mp hs with hs | hs
          · split_ifs at hs with hb
            · cases hs
            · rw [List.mem_singleton.mp hs]
              exact ⟨hb, hhead, hlast⟩
          · obtain ⟨c, hc, rfl⟩ := List.mem_map.mp hs
            exact edged_control (h.controls c (hcontrols ▸ hc))) hne
      rw [← hstr] at hedged
      obtain ⟨c, r, hcr⟩ := List.exists_cons_of_ne_nil hedged.ne
      have hc := hedged.head c (by rw [hcr]; rfl)
      rw [strip_blank hblank c (by rw [hcr]; exact List.mem_cons_self)] at hc
      cases hc
    obtain ⟨hb, hcs⟩ := List.append_eq_nil_iff.mp hnone
    have hbnil : body = [] := by
      by_contra hb'
      rw [if_neg hb'] at hb
      cases hb
    obtain ⟨ht, hf⟩ := hnil hbnil
    rw [parse_blank hblank]
    exact ⟨by rw [ht], hf.symm, by rw [List.map_eq_nil_iff.mp hcs]⟩
  · have htokens : tokensOf U (parse U q).str = (spelledToks U ks).map Tok.text ++ F.flatMap FieldFilter.toks := by
      unfold tokensOf
      rw [hcut, hbody, hterms, hfilters, terms_str, terms_shown h.aligned.ok,
        join_shown fun k hk => shown_spelled h.aligned.ok hk]
      refine tokenize_spelled h.aligned.spelled (fun f hf => (h.filters f hf).1) ?_
      rintro ⟨k', hk', hopen⟩
      refine h.opened ?_
      unfold spelledToks at hk'
      rcases List.mem_append.mp hk' with hk' | hk'
      · obtain ⟨x, -, rfl⟩ := List.mem_map.mp hk'
        cases hopen
      · obtain ⟨k, hk, hkk⟩ := List.mem_flatMap.mp hk'
        rcases again_cases hkk with ⟨w, -, rfl, -⟩ | ⟨-, rfl⟩ | ⟨x, rfl, -⟩
        · cases hopen
        · cases hopen
        · exact ⟨_, hk, rfl⟩
    have hpass := extractFilters_spelled h.aligned.ok h.left fun f hf => (h.filters f hf).1
    rw [parse_eq hblank, htokens, hpass, extractTerms_tokens h.aligned.spelled, spelledToks_phrase,
      spelledToks_left h.aligned.ok, plainTerms_kept, hcut]
    refine ⟨?_, hfilters.symm, ?_⟩
    · rw [hterms]
    · rw [hcontrols]

theorem Read.phrase {ks : List Tok} (h : Read U q ks F cs) {t : Term} (ht : t ∈ (parse U q).terms)
    (hp : t.isPhrase = true) : t.modifier = .none := by
  rw [h.parsed.1] at ht
  rcases List.mem_append.mp ht with ht | ht
  · obtain ⟨x, -, rfl⟩ := List.mem_map.mp ht
    rfl
  · obtain ⟨r, hr, rfl⟩ := List.mem_map.mp ht
    obtain ⟨w, hw, hterm⟩ := List.mem_filterMap.mp hr
    have hspace : ' ' ∉ w := by
      obtain ⟨k, -, hw⟩ := List.mem_flatMap.mp hw
      unfold Tok.left at hw
      split at hw
      · cases hw
      · exact space_not_mem (words_ok w hw).2.1
    rw [(termOf_str hspace hterm).2] at hp
    cases hp

theorem parseModifier_ne {m : Char} (h : m ∈ ['+', '!', '~', '=']) : parseModifier m ≠ .none := by
  simp only [List.mem_cons, List.not_mem_nil, or_false] at h
  rcases h with rfl | rfl | rfl | rfl
  · decide
  · decide
  · decide
  · decide

/-- **Where what is spelled is not read as something else, the canonical spelling means the same query exactly when no
modifier is written before a phrase.** -/
theorem spelling_means_the_same_iff (h : Settled U q) :
    MeansTheSame U q ↔ ∀ m x, ¬ModifiedPhrase U q m x := by
  obtain ⟨ks, F, cs, hread⟩ := read_of_settled h
  constructor
  · intro hmeans m x hm
    have hkept := hread.phrase (hmeans.modifiers m x hm) rfl
    obtain ⟨-, -, -, hmark, -⟩ := hm
    exact parseModifier_ne hmark hkept
  · intro hnone
    exact ⟨hread.again, fun m x hm => absurd hm (hnone m x)⟩

end Main

/-! ### A query in ASCII -/

section Ascii

def capitals : List (Char × Char) := "ABCDEFGHIJKLMNOPQRSTUVWXYZ".toList.zip "abcdefghijklmnopqrstuvwxyz".toList

/-- `str.isspace` in ASCII. -/
def asciiSpaces : List Char := [' ', '\t', '\n', '\r', '\x0b', '\x0c', '\x1c', '\x1d', '\x1e', '\x1f']

def asciiLower (c : Char) : Char := (capitals.lookup c).getD c

theorem capitals_spec : ∀ e ∈ capitals, e.1.isLower = false ∧ e.1 ≠ '_' ∧ capitals.lookup e.2 = none ∧ e.2 ∉ asciiSpaces := by
  decide +kernel

theorem asciiSpaces_spec : ∀ c ∈ asciiSpaces, c.isAlphanum = false := by
  decide

theorem asciiLower_cases (c : Char) :
    (capitals.lookup c = none ∧ asciiLower c = c) ∨ (c, asciiLower c) ∈ capitals := by
  unfold asciiLower
  cases h : capitals.lookup c with
  | none => exact .inl ⟨rfl, rfl⟩
  | some d =>
    obtain ⟨l₁, l₂, heq, -⟩ := List.lookup_eq_some_iff.mp h
    exact .inr (by rw [heq]; simp)

def ascii : CharTable where
  isSpace c := decide (c ∈ asciiSpaces)
  isAlnum c := c.isAlphanum
  lower s := s.map asciiLower
  space := by decide
  alnum_space c h := by
    rw [decide_eq_false_iff_not]
    intro hc
    rw [asciiSpaces_spec c hc] at h
    cases h
  marks := by decide
  underscore := by decide
  letters c h := by
    show (c.isUpper || c.isLower || c.isDigit) = true
    rw [h, Bool.or_true, Bool.true_or]
  lower_lower s := by
    rw [List.map_map]
    refine List.map_congr_left fun c _ => ?_
    rcases asciiLower_cases c with ⟨-, h⟩ | h
    · rw [Function.comp_apply, h, h]
    · show (capitals.lookup (asciiLower c)).getD _ = _
      rw [(capitals_spec _ h).2.2.1]
      rfl
  lower_nil s := by simp
  lower_space s h c hc := by
    obtain ⟨d, hd, rfl⟩ := List.mem_map.mp hc
    rcases asciiLower_cases d with ⟨-, hsame⟩ | hcap
    · rw [hsame]
      exact h d hd
    · rw [decide_eq_false_iff_not]
      exact (capitals_spec _ hcap).2.2.2
  lower_ascii s h := by
    refine (List.map_congr_left fun c hc => ?_).trans (List.map_id s)
    rcases asciiLower_cases c with ⟨-, hsame⟩ | hcap
    · exact hsame
    · have hspec := capitals_spec _ hcap
      rcases h c hc with hlow | hund
      · rw [hspec.1] at hlow
        cases hlow
      · exact absurd hund hspec.2.1

def plainQuery : Text := "type:pdf \"annual report\" +budget @lang:EN".toList

theorem plainQuery_settled : Settled ascii plainQuery := by
  have hfilters : (extractFilters ascii false (tokensOf ascii plainQuery)).2 =
      [⟨"type".toList, "pdf".toList, .equals, false⟩] := by
    decide +kernel
  have hnames : ∀ m ∈ findControls ascii plainQuery, ∀ c ∈ ascii.lower m.1, isWord ascii c = true := by
    decide +kernel
  have hkept : (extractFilters ascii false (tokensOf ascii plainQuery)).1 =
      ["\"annual report\"".toList, "+budget".toList] := by
    decide +kernel
  have htokens : tokensOf ascii plainQuery = ["type:pdf".toList, "\"annual report\"".toList, "+budget".toList] := by
    decide +kernel
  refine ⟨hnames, ?_, ?_, ?_⟩
  · intro f hf hop
    rw [hfilters] at hf
    rw [List.mem_singleton.mp hf] at hop
    cases hop
  · rw [hkept]
    refine List.pairwise_pair.mpr fun h => ?_
    revert h
    decide
  · rintro ⟨s, hs, hhead, hquote⟩
    rw [htokens] at hs
    simp only [List.mem_cons, List.not_mem_nil, or_false] at hs
    rcases hs with rfl | rfl | rfl
    · revert hhead
      decide
    · revert hquote
      decide
    · revert hhead
      decide

theorem spelling_means_the_same_iff_plain :
    MeansTheSame ascii plainQuery ↔ ∀ m x, ¬ModifiedPhrase ascii plainQuery m x :=
  spelling_means_the_same_iff plainQuery_settled

def openQuery : Text := "type:pdf +\"a b\" \"abc".toList

theorem open_quote_swallows_filter : ¬ ∀ (U : CharTable) (q : Text), MeansTheSame U q := by
  intro h
  have hagain := (h ascii openQuery).again.filters
  have hfirst : (parse ascii openQuery).filters = [⟨"type".toList, "pdf".toList, .equals, false⟩] := by
    decide +kernel
  have hsecond : (parse ascii (parse ascii openQuery).str).filters = [] := by
    decide +kernel
  rw [hfirst, hsecond] at hagain
  cases hagain

end Ascii

end Query

end Mantle
