import Mantle.Search.Lexical
import Mantle.Search.Query

/-!
# Mantle.Search.Stems — from a text to its stems (`search/mantle/sse/tokenizer.py`)

A text is cut into words, and each word is lowercased, folded, stripped of a possessive and stemmed.  The cut comes
before the fold: a letter spelled with a mark of its own ends the word it stands in, and composed it does not.
-/

namespace Mantle

namespace Stems

open Query (Text)

attribute [local instance (1100)] List.decidableBAll

/-- What `re`, `str.lower` and `unicodedata` know of characters.  `bare` is what the decomposition of a character leaves
without its marks: of a mark nothing, of anything else characters of its kind. -/
structure Unicode where
  isWord : Char → Bool
  combining : Char → Bool
  lower : Text → Text
  nfd : Text → Text
  bare : Char → Text
  space : isWord ' ' = false
  quote : isWord '\'' = false
  mark_word : ∀ c, bare c = [] → isWord c = false ∧ c ≠ '\''
  bare_kind : ∀ c, ∀ d ∈ bare c, isWord d = isWord c ∧ (d = '\'' ↔ c = '\'') ∧ (d = ' ' → c = ' ')
  nfd_bare : ∀ t, (nfd t).filter (fun c => !combining c) = t.flatMap bare
  lower_space : ∀ t, ' ' ∉ t → ' ' ∉ lower t
  lower_bare : ∀ t t', t.flatMap bare = t'.flatMap bare → (lower t).flatMap bare = (lower t').flatMap bare

/-! ### The stages -/

section Stages

variable (U : Unicode)

def opened (cur : Text) : List Text := if cur = [] then [] else [cur]

/-- The words of a text, `\w+(?:'\w*)*`; `cur` is the one that is open. -/
def words (cur : Text) : Text → List Text
  | [] => opened cur
  | c :: s =>
    if U.isWord c || (decide (c = '\'') && decide (cur ≠ [])) then words (cur ++ [c]) s else opened cur ++ words [] s

def splitWords (text : Text) : List Text := words U [] text

def foldToAscii (token : Text) : Text := (U.nfd token).filter fun c => !U.combining c

end Stages

/-- `str.endswith`. -/
def endsWith (s suffix : Text) : Bool := suffix.isSuffixOf s

def stripPossessive (token : Text) : Text :=
  if 2 ≤ token.length ∧ endsWith token ['\'', 's'] = true then token.rdrop 2
  else if 2 ≤ token.length ∧ endsWith token ['s', '\''] = true then token.rdrop 1
  else token

/-! ### The stemmer -/

def isVowel (stem : Text) : ℕ → Bool
  | 0 => (stem.getD 0 ' ') ∈ "aeiou".toList
  | i + 1 => (stem.getD (i + 1) ' ') ∈ "aeiou".toList || (stem.getD (i + 1) ' ' = 'y' && !isVowel stem i)

/-- The runs of vowels and consonants, a vowel as `true`. -/
def pattern (stem : Text) : List Bool :=
  (List.range stem.length).foldl
    (fun pattern i => if pattern.getLast? = some (isVowel stem i) then pattern else pattern ++ [isVowel stem i]) []

def measure (stem : Text) : ℕ := ((pattern stem).zip (pattern stem).tail).countP fun p => p.1 && !p.2

def containsVowel (stem : Text) : Bool := (List.range stem.length).any (isVowel stem)

def endsDoubleConsonant (stem : Text) : Bool :=
  decide (2 ≤ stem.length) && stem.getLast? == (stem.rdrop 1).getLast? && !isVowel stem (stem.length - 1)

/-- The last letter of a stem is one of some. -/
def endsIn (stem letters : Text) : Bool := stem.getLast?.any fun c => decide (c ∈ letters)

def endsCvc (stem : Text) : Bool :=
  decide (3 ≤ stem.length) && !isVowel stem (stem.length - 3) && isVowel stem (stem.length - 2) &&
    !isVowel stem (stem.length - 1) && !endsIn stem "wxy".toList

def replaceSuffix (stem suffix replacement : Text) : Text := stem.rdrop suffix.length ++ replacement

def step1a (stem : Text) : Text :=
  if endsWith stem "sses".toList then replaceSuffix stem "sses".toList "ss".toList
  else if endsWith stem "ies".toList then replaceSuffix stem "ies".toList "i".toList
  else if endsWith stem "ss".toList then stem
  else if endsWith stem "s".toList then stem.rdrop 1
  else stem

/-- What `_step_1b` restores once it has stripped an ending. -/
def restored (stem : Text) : Text :=
  if endsWith stem "at".toList || endsWith stem "bl".toList || endsWith stem "iz".toList then stem ++ ['e']
  else if endsDoubleConsonant stem && !endsIn stem "lsz".toList then stem.rdrop 1
  else if measure stem = 1 && endsCvc stem then stem ++ ['e']
  else stem

def step1b (stem : Text) : Text :=
  if endsWith stem "eed".toList then if 0 < measure (stem.rdrop 3) then stem.rdrop 1 else stem
  else if endsWith stem "ed".toList then if containsVowel (stem.rdrop 2) then restored (stem.rdrop 2) else stem
  else if endsWith stem "ing".toList then if containsVowel (stem.rdrop 3) then restored (stem.rdrop 3) else stem
  else stem

def step1c (stem : Text) : Text :=
  if endsWith stem "y".toList && containsVowel (stem.rdrop 1) then stem.rdrop 1 ++ ['i'] else stem

/-- The loop of `_step_2` and of `_step_3`: the first rule whose suffix the stem has decides. -/
def firstRule (stem : Text) : List (String × String) → Text
  | [] => stem
  | (suffix, replacement) :: rules =>
    if endsWith stem suffix.toList then
      if 0 < measure (stem.rdrop suffix.length) then stem.rdrop suffix.length ++ replacement.toList else stem
    else firstRule stem rules

def step2Rules : List (String × String) :=
  [("ational", "ate"), ("tional", "tion"), ("enci", "ence"), ("anci", "ance"), ("izer", "ize"), ("bli", "ble"),
   ("alli", "al"), ("entli", "ent"), ("eli", "e"), ("ousli", "ous"), ("ization", "ize"), ("ation", "ate"),
   ("ator", "ate"), ("alism", "al"), ("iveness", "ive"), ("fulness", "ful"), ("ousness", "ous"), ("aliti", "al"),
   ("iviti", "ive"), ("biliti", "ble"), ("logi", "log")]

def step3Rules : List (String × String) :=
  [("icate", "ic"), ("ative", ""), ("alize", "al"), ("iciti", "ic"), ("ical", "ic"), ("ful", ""), ("ness", "")]

def step4Rules : List String :=
  ["al", "ance", "ence", "er", "ic", "able", "ible", "ant", "ement", "ment", "ent", "ou", "ism", "ate", "iti", "ous",
   "ive", "ize"]

/-- The loop of `_step_4`. -/
def firstEnding (stem : Text) : List String → Text
  | [] => stem
  | suffix :: suffixes =>
    if endsWith stem suffix.toList then if 1 < measure (stem.rdrop suffix.length) then stem.rdrop suffix.length else stem
    else firstEnding stem suffixes

/-- `_step_4`; the suffixes longest first. -/
def step4 (stem : Text) : Text :=
  if endsWith stem "ion".toList then
    if 1 < measure (stem.rdrop 3) && endsIn (stem.rdrop 3) "st".toList then stem.rdrop 3 else stem
  else firstEnding stem (step4Rules.insertionSort fun a b => b.length ≤ a.length)

def step5a (stem : Text) : Text :=
  if endsWith stem "e".toList &&
      (decide (1 < measure (stem.rdrop 1)) || decide (measure (stem.rdrop 1) = 1) && !endsCvc (stem.rdrop 1)) then
    stem.rdrop 1
  else stem

def step5b (stem : Text) : Text :=
  if 1 < measure stem && endsDoubleConsonant stem && endsWith stem "l".toList then stem.rdrop 1 else stem

def porterStem (token : Text) : Text :=
  if token.length ≤ 2 || !token.all Char.isAlpha then token
  else step5b (step5a (step4 (firstRule (firstRule (step1c (step1b (step1a token))) step2Rules) step3Rules)))

section Pipeline

variable (U : Unicode)

/-- A word before it is stemmed. -/
def term (raw : Text) : Text := stripPossessive (foldToAscii U (U.lower raw))

def tokenize (text : Text) : List Text :=
  (splitWords U text).filterMap fun raw =>
    if term U raw = [] then none else if porterStem (term U raw) = [] then none else some (porterStem (term U raw))

/-- The pipeline, as the index uses it. -/
def analysis (hmacHex : String → String → String) (hex_ne : ∀ p m, hmacHex p m ≠ "") : Lexical.Analysis where
  tokenize text := (tokenize U text.toList).map String.ofList
  stem_ne := by
    intro text s hs
    obtain ⟨stem, hstem, rfl⟩ := List.mem_map.mp hs
    obtain ⟨raw, -, hraw⟩ := List.mem_filterMap.mp hstem
    split_ifs at hraw with _ hne
    cases hraw
    simpa using hne
  hmacHex := hmacHex
  hex_ne := hex_ne

/-- A character the fold drops whole. -/
def isMark (c : Char) : Bool := (foldToAscii U [c]).isEmpty

/-- Where a scan stands: outside a word, in one, or after a mark that ended one. -/
inductive Place
  | outside
  | word
  | cut

def cutAtMark : Place → Text → Bool
  | _, [] => false
  | .outside, c :: s => cutAtMark (if U.isWord c then .word else .outside) s
  | .word, c :: s =>
    cutAtMark (if isMark U c then .cut else if U.isWord c || decide (c = '\'') then .word else .outside) s
  | .cut, c :: s =>
    if isMark U c then cutAtMark .cut s else U.isWord c || decide (c = '\'') || cutAtMark .outside s

end Pipeline

/-! ### No stem has a space -/

/-- Letters only. -/
def Alphabetic (s : Text) : Prop := ∀ c ∈ s, c.isAlpha = true

theorem Alphabetic.rdrop {s : Text} (h : Alphabetic s) (n : ℕ) : Alphabetic (s.rdrop n) :=
  fun c hc => h c (List.mem_of_mem_take hc)

theorem Alphabetic.append {s t : Text} (h : Alphabetic s) (ht : Alphabetic t) : Alphabetic (s ++ t) :=
  fun c hc => (List.mem_append.mp hc).elim (h c) (ht c)

section Alphabetic

variable {s : Text}

theorem firstRule_alphabetic (h : Alphabetic s) : ∀ {rules : List (String × String)},
    (∀ r ∈ rules, Alphabetic r.2.toList) → Alphabetic (firstRule s rules)
  | [], _ => h
  | (suffix, replacement) :: rules, hrules => by
    obtain ⟨hr, hrest⟩ := List.forall_mem_cons.mp hrules
    unfold firstRule
    split_ifs
    · exact (h.rdrop _).append hr
    · exact h
    · exact firstRule_alphabetic h hrest

theorem firstEnding_alphabetic (h : Alphabetic s) : ∀ suffixes : List String, Alphabetic (firstEnding s suffixes)
  | [] => h
  | suffix :: suffixes => by
    unfold firstEnding
    split_ifs
    · exact h.rdrop _
    · exact h
    · exact firstEnding_alphabetic h suffixes

theorem restored_alphabetic (h : Alphabetic s) : Alphabetic (restored s) := by
  have he : Alphabetic ['e'] := by unfold Alphabetic; decide
  unfold restored
  split_ifs
  · exact h.append he
  · exact h.rdrop 1
  · exact h.append he
  · exact h

/-- Every step drops letters from the end and may put letters there. -/
theorem step_alphabetic (h : Alphabetic s) : Alphabetic (step1a s) ∧ Alphabetic (step1b s) ∧ Alphabetic (step1c s) ∧
    Alphabetic (step4 s) ∧ Alphabetic (step5a s) ∧ Alphabetic (step5b s) := by
  have hput : ∀ n, ∀ letters ∈ ["ss".toList, "i".toList], Alphabetic (s.rdrop n ++ letters) := fun n letters hl =>
    (h.rdrop n).append (by revert letters; unfold Alphabetic; decide)
  unfold step1a step1b step1c step4 step5a step5b replaceSuffix
  refine ⟨?_, ?_, ?_, ?_, ?_, ?_⟩ <;> split_ifs <;>
    first
    | exact h
    | exact h.rdrop _
    | exact restored_alphabetic (h.rdrop _)
    | exact firstEnding_alphabetic h _
    | exact hput _ _ (by decide)

/-- **A stem is the token, or letters only.** -/
theorem porterStem_cases (token : Text) : porterStem token = token ∨ Alphabetic (porterStem token) := by
  unfold porterStem
  split_ifs with hshort
  · exact .inl rfl
  have hall : Alphabetic token := by
    intro c hc
    rw [Bool.or_eq_true, not_or, Bool.not_eq_true', Bool.not_eq_false] at hshort
    exact List.all_eq_true.mp hshort.2 c hc
  have h1 := (step_alphabetic (step_alphabetic (step_alphabetic hall).1).2.1).2.2.1
  have h3 : Alphabetic (firstRule (firstRule _ step2Rules) step3Rules) :=
    firstRule_alphabetic (firstRule_alphabetic h1 (by unfold Alphabetic; decide)) (by unfold Alphabetic; decide)
  have h5 := (step_alphabetic (step_alphabetic h3).2.2.2.1).2.2.2.2.1
  exact .inr (step_alphabetic h5).2.2.2.2.2

end Alphabetic

variable {U : Unicode} {t t' cur : Text}

theorem foldToAscii_eq (token : Text) : foldToAscii U token = token.flatMap U.bare := U.nfd_bare token

theorem words_cons (c : Char) (s : Text) : words U cur (c :: s) =
    if U.isWord c || (decide (c = '\'') && decide (cur ≠ [])) then words U (cur ++ [c]) s
    else opened cur ++ words U [] s := rfl

theorem mem_opened {w : Text} (h : w ∈ opened cur) : w = cur := by
  unfold opened at h
  split_ifs at h
  · cases h
  · exact List.mem_singleton.mp h

theorem isMark_iff {c : Char} : isMark U c = true ↔ U.bare c = [] := by
  unfold isMark
  rw [foldToAscii_eq, List.flatMap_singleton, List.isEmpty_iff]

theorem words_space (h : ' ' ∉ cur) : ∀ w ∈ words U cur t, ' ' ∉ w := by
  induction t generalizing cur with
  | nil => exact fun w hw => mem_opened hw ▸ h
  | cons c s ih =>
    rw [words_cons]
    split_ifs with hc
    · refine ih ?_
      rw [List.mem_append, not_or, List.mem_singleton]
      refine ⟨h, ?_⟩
      rintro rfl
      simp [U.space] at hc
    · intro w hw
      rcases List.mem_append.mp hw with hw | hw
      · exact mem_opened hw ▸ h
      · exact ih (by simp) w hw

theorem stem_space {s : Text} (hs : s ∈ tokenize U t) : ' ' ∉ s := by
  obtain ⟨raw, hraw, hterm⟩ := List.mem_filterMap.mp hs
  split_ifs at hterm
  cases hterm
  have hlower : ' ' ∉ U.lower raw := U.lower_space raw (words_space (by simp) raw hraw)
  have hfold : ' ' ∉ foldToAscii U (U.lower raw) := by
    rw [foldToAscii_eq]
    intro h
    obtain ⟨c, hc, hd⟩ := List.mem_flatMap.mp h
    exact hlower ((U.bare_kind c _ hd).2.2 rfl ▸ hc)
  have hwhole : ' ' ∉ term U raw := by
    unfold term stripPossessive
    split_ifs
    · exact fun h => hfold (List.mem_of_mem_take h)
    · exact fun h => hfold (List.mem_of_mem_take h)
    · exact hfold
  rcases porterStem_cases (term U raw) with heq | halpha
  · rwa [heq]
  · exact fun h => absurd (halpha _ h) (by decide)

/-! ### Two texts with a space between -/

theorem words_append_space (a b : Text) : words U cur (a ++ ' ' :: b) = words U cur a ++ words U [] b := by
  induction a generalizing cur with
  | nil =>
    rw [List.nil_append, words_cons, if_neg (by simp [U.space])]
    rfl
  | cons c a ih =>
    rw [List.cons_append, words_cons, words_cons]
    split_ifs
    · exact ih
    · rw [ih, List.append_assoc]

theorem tokenize_append_space (a b : Text) : tokenize U (a ++ ' ' :: b) = tokenize U a ++ tokenize U b := by
  unfold tokenize splitWords
  rw [words_append_space, List.filterMap_append]

/-! ### One spelling or another -/

/-- Characters that go on with the word that is open. -/
theorem words_run {r : Text} (hr : ∀ c ∈ r, U.isWord c = true ∨ c = '\'') (hcur : cur ≠ []) (s : Text) :
    words U cur (r ++ s) = words U (cur ++ r) s := by
  induction r generalizing cur with
  | nil => rw [List.nil_append, List.append_nil]
  | cons c r ih =>
    obtain ⟨hc, hr⟩ := List.forall_mem_cons.mp hr
    rw [List.cons_append, words_cons, if_pos (by rcases hc with hc | hc <;> simp [hc, hcur]), ih hr (by simp),
      List.append_assoc]
    rfl

/-- Characters that start a word, or go on with it. -/
theorem words_letters {r : Text} (hr : ∀ c ∈ r, U.isWord c = true) (s : Text) :
    words U cur (r ++ s) = words U (cur ++ r) s := by
  cases r with
  | nil => rw [List.nil_append, List.append_nil]
  | cons c r =>
    rw [List.cons_append, words_cons, if_pos (by simp [hr c List.mem_cons_self]),
      words_run (fun d hd => .inl (hr d (List.mem_cons_of_mem c hd))) (by simp), List.append_assoc]
    rfl

/-- Characters that end the word that is open, and start none. -/
theorem words_end {r : Text} (hr : ∀ c ∈ r, U.isWord c = false ∧ (c = '\'' → cur = [])) (hne : r ≠ []) (s : Text) :
    words U cur (r ++ s) = opened cur ++ words U [] s := by
  induction r generalizing cur with
  | nil => exact absurd rfl hne
  | cons c r ih =>
    obtain ⟨⟨hw, hq⟩, hr⟩ := List.forall_mem_cons.mp hr
    rw [List.cons_append, words_cons, if_neg (by simpa [hw] using hq)]
    by_cases hnil : r = []
    · rw [hnil, List.nil_append]
    · rw [ih (fun d hd => ⟨(hr d hd).1, fun _ => rfl⟩) hnil]
      rfl

theorem cutAtMark_cut (h : cutAtMark U .cut t = false) : cutAtMark U .outside t = false ∧
    ∀ cur, words U cur (t.flatMap U.bare) = opened cur ++ words U [] (t.flatMap U.bare) := by
  induction t with
  | nil => exact ⟨rfl, fun cur => (List.append_nil _).symm⟩
  | cons c s ih =>
    unfold cutAtMark at h ⊢
    by_cases hmark : isMark U c = true
    · have hbare := isMark_iff.mp hmark
      rw [if_pos hmark] at h
      rw [if_neg (by simp [(U.mark_word c hbare).1]), List.flatMap_cons, hbare]
      exact ih h
    · rw [if_neg hmark, Bool.or_eq_false_iff, Bool.or_eq_false_iff, decide_eq_false_iff_not] at h
      obtain ⟨⟨hw, hq⟩, hrest⟩ := h
      rw [if_neg (by simp [hw])]
      refine ⟨hrest, fun cur => ?_⟩
      have hother : ∀ d ∈ U.bare c, U.isWord d = false ∧ d ≠ '\'' := fun d hd =>
        ⟨(U.bare_kind c d hd).1.trans hw, fun he => hq ((U.bare_kind c d hd).2.1.mp he)⟩
      rw [isMark_iff] at hmark
      rw [List.flatMap_cons, words_end (fun d hd => ⟨(hother d hd).1, fun he => absurd he (hother d hd).2⟩) hmark,
        words_end (fun d hd => ⟨(hother d hd).1, fun _ => rfl⟩) hmark]
      rfl

/-- Where a scan stands by the word that is open. -/
def placeOf (cur : Text) : Place := if cur = [] then .outside else .word

theorem flatMap_bare_eq_nil (h : ∀ c ∈ cur, U.bare c ≠ []) : cur.flatMap U.bare = [] ↔ cur = [] := by
  rw [List.flatMap_eq_nil_iff]
  cases cur with
  | nil => simp
  | cons c s => simpa using fun hc => absurd hc (h c List.mem_cons_self)

theorem flatMap_opened (h : ∀ c ∈ cur, U.bare c ≠ []) :
    (opened cur).map (fun w => w.flatMap U.bare) = opened (cur.flatMap U.bare) := by
  unfold opened
  simp only [flatMap_bare_eq_nil h]
  split_ifs <;> rfl

/-- **The cut and the fold**: where no mark cuts a word, the words of a text are those of the text without its marks. -/
theorem words_bare (hcur : ∀ c ∈ cur, U.bare c ≠ []) (h : cutAtMark U (placeOf cur) t = false) :
    (words U cur t).map (fun w => w.flatMap U.bare) = words U (cur.flatMap U.bare) (t.flatMap U.bare) := by
  induction t generalizing cur with
  | nil => exact flatMap_opened hcur
  | cons c s ih =>
    rw [words_cons, List.flatMap_cons]
    by_cases hgo : (U.isWord c || (decide (c = '\'') && decide (cur ≠ []))) = true
    · -- the word goes on, or starts: a mark does neither
      have hmark : U.bare c ≠ [] := by
        intro hc
        simp [U.mark_word c hc] at hgo
      have hplace : cutAtMark U .word s = false := by
        unfold placeOf at h
        split_ifs at h with hnil
        · have hw : U.isWord c = true := by simpa [hnil] using hgo
          simpa [cutAtMark, hw] using h
        · have hw : (U.isWord c || decide (c = '\'')) = true := by simpa [hnil] using hgo
          simpa only [cutAtMark, isMark_iff, hmark, if_false, hw, if_true] using h
      have hnext : ∀ d ∈ cur ++ [c], U.bare d ≠ [] := by
        intro d hd
        rcases List.mem_append.mp hd with hd | hd
        · exact hcur d hd
        · exact List.mem_singleton.mp hd ▸ hmark
      rw [if_pos hgo, ih hnext (by rwa [placeOf, if_neg (by simp)]), List.flatMap_append, List.flatMap_singleton]
      by_cases hw : U.isWord c = true
      · exact (words_letters (fun d hd => (U.bare_kind c d hd).1.trans hw) _).symm
      · have hq : c = '\'' ∧ cur ≠ [] := by simpa [hw] using hgo
        refine (words_run (fun d hd => .inr ((U.bare_kind c d hd).2.1.mpr hq.1)) ((flatMap_bare_eq_nil hcur).not.mpr hq.2) _).symm
    · rw [if_neg hgo, List.map_append, flatMap_opened hcur]
      have hw : U.isWord c = false := by
        by_contra hc
        simp [hc] at hgo
      have hq : c = '\'' → cur = [] := by
        intro he
        by_contra hne
        simp [he, hne] at hgo
      by_cases hmark : U.bare c = []
      · rw [hmark, List.nil_append]
        by_cases hnil : cur = []
        · subst hnil
          have hplace : cutAtMark U .outside s = false := by simpa [placeOf, cutAtMark, hw] using h
          exact ih (by simp) hplace
        · have hplace : cutAtMark U .cut s = false := by simpa [placeOf, hnil, cutAtMark, isMark_iff, hmark] using h
          obtain ⟨hrest, hsplit⟩ := cutAtMark_cut hplace
          rw [hsplit]
          exact congrArg _ (ih (by simp) hrest)
      · have hplace : cutAtMark U .outside s = false := by
          unfold placeOf at h
          split_ifs at h with hnil
          · simpa [cutAtMark, hw] using h
          · have hnq : c ≠ '\'' := fun he => hnil (hq he)
            simpa [cutAtMark, isMark_iff, hmark, hw, hnq] using h
        rw [words_end (fun d hd => ⟨(U.bare_kind c d hd).1.trans hw, fun he =>
          (flatMap_bare_eq_nil hcur).mpr (hq ((U.bare_kind c d hd).2.1.mp he))⟩) hmark]
        exact congrArg _ (ih (by simp) hplace)

theorem splitWords_bare (h : cutAtMark U .outside t = false) :
    (splitWords U t).map (fun w => w.flatMap U.bare) = words U [] (t.flatMap U.bare) :=
  words_bare (by simp) h

theorem term_bare {w w' : Text} (h : w.flatMap U.bare = w'.flatMap U.bare) : term U w = term U w' := by
  unfold term
  rw [foldToAscii_eq, foldToAscii_eq, U.lower_bare w w' h]

theorem filterMap_bare {f : Text → Option Text} (hf : ∀ w w' : Text, w.flatMap U.bare = w'.flatMap U.bare → f w = f w') :
    ∀ {ws ws' : List Text}, (ws.map fun w => w.flatMap U.bare) = (ws'.map fun w => w.flatMap U.bare) →
      ws.filterMap f = ws'.filterMap f
  | [], ws', h => by
    rw [List.map_eq_nil_iff.mp h.symm]
  | w :: ws, ws', h => by
    obtain ⟨w', ws'', rfl, hw, hws⟩ := List.map_eq_cons_iff.mp h.symm
    rw [List.filterMap_cons, List.filterMap_cons, hf w w' hw.symm, filterMap_bare hf hws.symm]

theorem tokenize_bare (h : cutAtMark U .outside t = false) (h' : cutAtMark U .outside t' = false)
    (hbare : t.flatMap U.bare = t'.flatMap U.bare) : tokenize U t = tokenize U t' := by
  refine filterMap_bare (U := U) ?_ ?_
  · intro w w' hw
    rw [term_bare hw]
  · rw [splitWords_bare h, splitWords_bare h', hbare]

/-- **One word has one posting**, between spaces and in every spelling, where no mark cuts a word. -/
theorem one_posting (U : Unicode) :
    (∀ a b, tokenize U (a ++ ' ' :: b) = tokenize U a ++ tokenize U b) ∧
      (∀ t, ∀ s ∈ tokenize U t, ' ' ∉ s) ∧
      ∀ t t', U.nfd t = U.nfd t' → cutAtMark U .outside t = false → cutAtMark U .outside t' = false →
        tokenize U t = tokenize U t' :=
  ⟨tokenize_append_space, fun _ _ => stem_space, fun t t' hnfd h h' =>
    tokenize_bare h h' (by rw [← U.nfd_bare, ← U.nfd_bare, hnfd])⟩

/-! ### A word with an accent -/

def acute : Char := '\u0301'

/-- Letters, and one that decomposes; texts in lower case. -/
def latin : Unicode where
  isWord c := c.isAlphanum || c = '_' || c = 'é'
  combining c := c = acute
  lower := id
  nfd t := t.flatMap fun c => if c = 'é' then ['e', acute] else [c]
  bare c := if c = acute then [] else if c = 'é' then ['e'] else [c]
  space := by decide
  quote := by decide
  mark_word := by
    intro c hc
    split_ifs at hc with h
    rw [h]
    decide
  bare_kind := by
    intro c d hd
    split_ifs at hd with h₁ h₂
    · cases hd
    · rw [List.mem_singleton.mp hd, h₂]
      decide
    · rw [List.mem_singleton.mp hd]
      exact ⟨rfl, Iff.rfl, id⟩
  nfd_bare := by
    intro t
    rw [List.filter_flatMap]
    congr 1
    funext c
    split_ifs with h₁ h₂ h₂
    · rw [h₁] at h₂
      exact absurd h₂ (by decide)
    · rfl
    · rw [h₂]
      rfl
    · simp [h₂]
  lower_space _ h := h
  lower_bare _ _ h := h

theorem one_posting_cafe :
    latin.nfd "café".toList = latin.nfd ("cafe".toList ++ [acute]) ∧
      tokenize latin "café".toList = tokenize latin ("cafe".toList ++ [acute]) :=
  ⟨by decide +kernel, (one_posting latin).2.2 _ _ (by decide +kernel) (by decide +kernel) (by decide +kernel)⟩

theorem cafes_has_two_postings : ¬∀ U : Unicode,
    (∀ a b, tokenize U (a ++ ' ' :: b) = tokenize U a ++ tokenize U b) ∧
      (∀ t, ∀ s ∈ tokenize U t, ' ' ∉ s) ∧ ∀ t t', U.nfd t = U.nfd t' → tokenize U t = tokenize U t' := by
  intro h
  have := (h latin).2.2 "cafés".toList ("cafe".toList ++ [acute, 's']) (by decide +kernel)
  revert this
  decide +kernel

end Stems

end Mantle
