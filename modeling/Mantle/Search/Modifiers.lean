import Mantle.Search.Appended
import Mantle.Search.Narrowing

/-!
# Mantle.Search.Modifiers — what `!` and `+` do to a recall (`router_accessor.py`, `tokenizer.py`)

`plan_recall` joins the texts of a query's terms and drops their modifiers, and the narrowing returns what any stem
finds.
-/

namespace Mantle

namespace Query

/-! ### Words and stems (`tokenizer.py`) -/

section Stems

variable (U : CharTable)

/-- `\w+(?:'\w*)*` at the start of a text, and how long the match is. -/
def wordAt : Text → Option (Text × ℕ)
  | [] => none
  | c :: s =>
    let rest := s.takeWhile fun d => isWord U d || d = '\''
    if isWord U c then some (c :: rest, rest.length + 1) else none

def splitWords (text : Text) : List Text := Scan.findAll (wordAt U) 0 text

/-- `tokenize`; `stem` is what the pipeline makes of one raw word, `none` where it drops it. -/
def tokenizeWords (stem : Text → Option Text) (text : Text) : List Text := (splitWords U text).filterMap stem

end Stems

/-! ### The stems of a text -/

section Stems

variable {U : CharTable} {stem : Text → Option Text}

/-- Neither a word character nor an apostrophe. -/
def Parts (U : CharTable) (c : Char) : Prop := isWord U c = false ∧ c ≠ '\''

theorem parts_space {c : Char} (h : U.isSpace c = true) (ha : U.isSpace '\'' = false) : Parts U c := by
  refine ⟨?_, ?_⟩
  · by_contra hw
    rw [isWord_space (by simpa using hw)] at h
    cases h
  · rintro rfl
    rw [ha] at h
    cases h

theorem wordAt_before {c : Char} {b s : Text} (hc : Parts U c) (hs : s ≠ []) : wordAt U (s ++ c :: b) = wordAt U s := by
  obtain ⟨d, s, rfl⟩ := List.exists_cons_of_ne_nil hs
  have hrun : (s ++ c :: b).takeWhile (fun d => isWord U d || d = '\'') = s.takeWhile fun d => isWord U d || d = '\'' := by
    have hstop : (c :: b).takeWhile (fun d => isWord U d || d = '\'') = [] :=
      List.takeWhile_cons_of_neg (by simp [hc.1, hc.2])
    rw [List.takeWhile_append, hstop, List.append_nil]
    split_ifs with hlen
    · exact ((List.takeWhile_prefix _).eq_of_length hlen).symm
    · rfl
  rw [List.cons_append]
  unfold wordAt
  dsimp only
  rw [hrun]

theorem wordAt_length {s w : Text} {n : ℕ} (h : wordAt U s = some (w, n)) : n ≤ s.length := by
  cases s with
  | nil => cases h
  | cons c s =>
    unfold wordAt at h
    dsimp only at h
    split_ifs at h
    cases h
    exact Nat.succ_le_succ (List.takeWhile_prefix _).length_le

theorem splitWords_parts {c : Char} {a b : Text} (hc : Parts U c) :
    splitWords U (a ++ c :: b) = splitWords U a ++ splitWords U b := by
  have hskip : splitWords U (c :: b) = splitWords U b := by
    refine Scan.findAll_none ?_
    unfold wordAt
    dsimp only
    rw [hc.1]
    rfl
  unfold splitWords at hskip ⊢
  rw [Scan.findAll_before (fun s hs => wordAt_before hc hs) (fun s w n h => wordAt_length h) a 0 (Nat.zero_le _), hskip]

theorem splitWords_blank (ha : U.isSpace '\'' = false) : ∀ {post : Text}, (∀ c ∈ post, U.isSpace c = true) → ∀ z,
    splitWords U (z ++ post) = splitWords U z ∧ splitWords U (post ++ z) = splitWords U z
  | [], _, z => by rw [List.append_nil]; exact ⟨rfl, rfl⟩
  | c :: post, h, z => by
    obtain ⟨hc, hpost⟩ := List.forall_mem_cons.mp h
    have hparts := parts_space hc ha
    have hright := splitWords_blank ha hpost
    refine ⟨?_, ?_⟩
    · have hnone := (hright []).2
      rw [List.append_nil] at hnone
      rw [splitWords_parts hparts, hnone]
      exact List.append_nil _
    · have hsplit := splitWords_parts (a := []) (b := post ++ z) hparts
      rw [List.nil_append] at hsplit
      rw [List.cons_append, hsplit, (hright z).2]
      rfl

theorem splitWords_strip (ha : U.isSpace '\'' = false) (s : Text) :
    splitWords U (Scan.strip U.isSpace s) = splitWords U s := by
  have hfront : s = s.takeWhile U.isSpace ++ s.dropWhile U.isSpace := List.takeWhile_append_dropWhile.symm
  have hback : s.dropWhile U.isSpace =
      Scan.strip U.isSpace s ++ (s.dropWhile U.isSpace).rtakeWhile U.isSpace := by
    unfold Scan.strip List.rdropWhile List.rtakeWhile
    rw [← List.reverse_append, List.takeWhile_append_dropWhile, List.reverse_reverse]
  conv_rhs => rw [hfront, (splitWords_blank ha (fun c hc => List.mem_takeWhile_imp hc) _).2, hback,
    (splitWords_blank ha (fun c hc => List.mem_rtakeWhile_imp hc) _).1]

theorem tokenizeWords_join (ha : U.isSpace '\'' = false) : ∀ l : List Text,
    tokenizeWords U stem (Scan.join ' ' l) = l.flatMap (tokenizeWords U stem)
  | [] => rfl
  | [x] => by simp [Scan.join]
  | x :: y :: l => by
    have hrest := tokenizeWords_join ha (y :: l)
    unfold tokenizeWords at hrest ⊢
    rw [Scan.join_cons (by simp), splitWords_parts (parts_space U.space ha), List.filterMap_append, hrest]
    rfl

end Stems

end Query

namespace Recall

open Lexical (Narrower PostingStore Analysis)
open Query (CharTable Text Operand)

attribute [local instance (1100)] List.decidableBAll

/-! ### The accessor as it is wired (`wiring.py`) -/

def ofTerm (t : Query.Term) : Term := ⟨String.ofList t.text, decide (t.modifier = .semantic), t.isPhrase⟩

def ofOperator : Query.FieldOperator → FieldOperator
  | .equals => .equals
  | .gt => .gt
  | .lt => .lt
  | .semantic => .semantic
  | .exact => .exact

def ofFilter (f : Query.FieldFilter) : FieldFilter :=
  ⟨String.ofList f.field, String.ofList f.value, ofOperator f.operator, f.negated⟩

def ofParsed (p : Query.ParsedQuery) : ParsedQuery := ⟨p.terms.map ofTerm, p.filters.map ofFilter⟩

/-- What a node's accessor is built from. -/
structure Wiring where
  tables : CharTable
  /-- `str.strip` and `\s` agree. -/
  spaces : ∀ c, tables.isSpace c = isPySpace c
  /-- The pipeline on one raw word: lower case, fold, possessive, Porter. -/
  stem : Text → Option Text
  stem_ne : ∀ {raw s}, stem raw = some s → s ≠ []
  hmacHex : String → String → String
  hex_ne : ∀ p m, hmacHex p m ≠ ""
  /-- What custody answers a requester about a principal's key. -/
  derive : String → String → Except Lexical.KeyErr Unit
  postings : PostingStore
  /-- `salient_terms` of a bound ontology; `none` inside is an exception. -/
  salient : Option (List String → Option (List String))
  /-- The filters, the embeddings, the ranker and the segment. -/
  rest : Accessor

namespace Wiring

variable (W : Wiring)

def analysis : Analysis where
  tokenize text := (Query.tokenizeWords W.tables W.stem text.toList).map String.ofList
  stem_ne {text s} h := by
    obtain ⟨s', hs', rfl⟩ := List.mem_map.mp h
    obtain ⟨raw, -, hraw⟩ := List.mem_filterMap.mp hs'
    intro hempty
    exact W.stem_ne hraw (by simpa using hempty)
  hmacHex := W.hmacHex
  hex_ne := W.hex_ne

/-- `TokenNarrower(oracle, posting_store)`, under a requester's key request. -/
def narrower (user : String) : Narrower := ⟨W.analysis, W.derive user, W.postings, none, false⟩

/-- `lookup_for`, of a text and the requester; a lookup that raises narrows to nothing. -/
def lookups (text user : String) : Option CoverageLookup :=
  ((W.narrower user).lookupFor text W.salient).map fun lookup pairs => (lookup pairs).toOption

/-- `build_sse_search_accessor`. -/
def accessor : Accessor :=
  { W.rest with
    parseQuery := fun text => ofParsed (Query.parse W.tables text.toList)
    narrower := some W.lookups }

/-! ### What is recalled -/

/-- The artifact is among those a recall of the text resolves. -/
def Recalled (now : Val → Bool) (db : Store) (q : SearchQuery) (text : Text) (a : String) : Prop :=
  ∃ e, W.accessor.narrowed now db { q with queryText := String.ofList text } = .ok (some e) ∧ a ∈ e.scope.artifactIds

def stems (text : Text) : List String := (Query.tokenizeWords W.tables W.stem text).map String.ofList

/-- **The indexed text carries the word's stem**; a phrase's, every stem and every bigram. -/
def CarriesTerm (q : SearchQuery) (t : Operand) (a : String) : Prop :=
  W.stems t.text ≠ [] ∧ ∃ p c, (∀ s ∈ W.stems t.text, (W.narrower q.userId).Carries p [c] s a) ∧
    (t.isPhrase = true → ∀ b ∈ Lexical.bigrams (W.stems t.text), (W.narrower q.userId).Carries p [c] b a)

/-- **Excluding a term never adds a result, and no result has it; requiring a term leaves results that have it.** -/
structure KeepsModifiers (now : Val → Bool) (db : Store) (q : SearchQuery) (text : Text) (t : Operand) : Prop where
  excluded : ∀ a, W.Recalled now db q (Query.followedBy text '!' t) a → W.Recalled now db q text a ∧ ¬W.CarriesTerm q t a
  required : ∀ a, W.Recalled now db q (Query.followedBy text '+' t) a → W.CarriesTerm q t a

/-! ### When nothing is recalled -/

/-- All the stems, or those the measure keeps. -/
def salientOf (stems : List String) : List String :=
  let kept := (W.salient.bind fun measure => measure stems).getD []
  if kept = [] then stems else kept

def termStems (ts : List Query.Term) : List String := ts.flatMap fun t => W.stems t.text

/-- The stems looked up for a query and the term added to it. -/
def sought (text : Text) (t : Operand) : List String :=
  W.salientOf (W.termStems (Query.parse W.tables (Query.followedBy text '!' t)).terms)

/-- The principals and collections whose keys the requester may hold. -/
def contexts (now : Val → Bool) (db : Store) (q : SearchQuery) : List (String × String) :=
  match getActiveGrantsForGrantee now db q.userId with
  | .error _ => []
  | .ok grants => custodyContexts db .read (seedsOf grants fun m => m.allows .read)
      (seedsOf grants fun m => m.isDeny && m.carries .read)

/-- The requester may read the artifact, and it passes the query's filters. -/
def AtHand (now : Val → Bool) (db : Store) (q : SearchQuery) (text : Text) (a : String) : Prop :=
  q.userId ≠ "" ∧ GrantsRead now db q.userId ∧
    ∃ pred, W.rest.compileFilters ((Query.parse W.tables text).filters.map ofFilter) = .ok pred ∧
      ∃ doc, shownDoc db a = some doc ∧ passes pred doc = true ∧ HoldsCustody now db q.userId .read ∧
        AllowFirst (HoldsAllow now db q.userId .read) (HoldsDeny now db q.userId .read)
          (candidateLine db .read a (rootIn doc a))

/-- The index files the artifact under one of the stems, where the requester may hold the key. -/
def Filed (now : Val → Bool) (db : Store) (q : SearchQuery) (stems : List String) (a : String) : Prop :=
  ∃ p ∈ Lexical.principals (contexts now db q), ∃ s ∈ Lexical.asked stems,
    (W.narrower q.userId).Carries p (Lexical.collectionsOf (contexts now db q) p) s a

/-- **Custody refuses one of the keys, or nothing at hand is filed under a stem of the query or of the term.** -/
def NothingFound (now : Val → Bool) (db : Store) (q : SearchQuery) (text : Text) (t : Operand) : Prop :=
  (W.narrower q.userId).Refused (contexts now db q) ∨ ∀ a, W.AtHand now db q text a → ¬W.Filed now db q (W.sought text t) a

end Wiring

/-! ### What a query with a term added recalls -/

section Wired

variable {W : Wiring} {now : Val → Bool} {db : Store} {q : SearchQuery} {text : Text} {t : Operand} {a : String}

theorem Wiring.apostrophe (W : Wiring) : W.tables.isSpace '\'' = false := by
  rw [W.spaces]
  decide

theorem toList_strip (s : String) : (strip s).toList = Scan.strip isPySpace s.toList := by
  unfold strip Scan.strip List.rdropWhile
  rw [String.toList_ofList]

theorem intercalate_join (c : Char) : ∀ l : List Text, [c].intercalate l = Scan.join c l
  | [] => rfl
  | [x] => List.intercalate_singleton
  | x :: y :: l => by
    rw [List.intercalate_cons_cons, intercalate_join c (y :: l), List.append_assoc]
    rfl

theorem toList_retrieval (W : Wiring) (ts : List Query.Term) :
    (strip (" ".intercalate ((ts.map ofTerm).map Term.text))).toList =
      Scan.strip W.tables.isSpace (Scan.join ' ' (ts.map Query.Term.text)) := by
  have hspaces : isPySpace = W.tables.isSpace := funext fun c => (W.spaces c).symm
  rw [toList_strip, hspaces, String.toList_intercalate, List.map_map, List.map_map]
  have hmap : ((String.toList ∘ Term.text) ∘ ofTerm) = Query.Term.text := by
    funext t
    simp [ofTerm]
  rw [show (" ".toList : Text) = [' '] from rfl, intercalate_join, hmap]

theorem analysis_tokenize (s : String) : W.analysis.tokenize s = W.stems s.toList := rfl

theorem phraseStems_open {A : Analysis} {s : String} (h : s.toList.getLast? ≠ some '"') :
    Lexical.phraseStems A s = (A.tokenize s, false) := by
  unfold Lexical.phraseStems
  dsimp only
  rw [decide_eq_false h, Bool.and_false]
  simp

theorem tokenize_retrieval (ts : List Query.Term) :
    W.analysis.tokenize (strip (" ".intercalate ((ts.map ofTerm).map Term.text))) = W.termStems ts := by
  have hstrip : Query.tokenizeWords W.tables W.stem
      (Scan.strip W.tables.isSpace (Scan.join ' ' (ts.map Query.Term.text))) =
        Query.tokenizeWords W.tables W.stem (Scan.join ' ' (ts.map Query.Term.text)) := by
    unfold Query.tokenizeWords
    rw [Query.splitWords_strip W.apostrophe]
  rw [analysis_tokenize, toList_retrieval]
  unfold Wiring.termStems Wiring.stems
  rw [hstrip, Query.tokenizeWords_join W.apostrophe, List.map_flatMap, List.flatMap_map]

theorem narrowedScope_lookup {act : Action} {allow deny : List String} {pred : Option ArtifactPredicate} {lookup : TokenLookup}
    {x : String} : x ∈ (narrowedScope db act allow deny pred lookup).artifactIds ↔
      ∃ M, lookup (custodyContexts db act allow deny) = some M ∧
        x ∈ (narrowedScope db act allow deny pred fun _ => some M).artifactIds := by
  unfold narrowedScope tokenNarrowing
  dsimp only
  by_cases hc : (custodyContexts db act allow deny).isEmpty = true
  · simp [hc]
  · rw [if_neg hc, if_neg hc]
    cases lookup (custodyContexts db act allow deny) with
    | none => simp
    | some M => simp [hc]

theorem lookupFor_open {user s : String} (hlast : s.toList.getLast? ≠ some '"') (hne : W.stems s.toList ≠ []) :
    (W.narrower user).lookupFor s W.salient =
      some fun pairs => (W.narrower user).idsForStems (W.salientOf (W.stems s.toList)) pairs false := by
  have hphrase : Lexical.phraseStems (W.narrower user).analysis s = (W.stems s.toList, false) := phraseStems_open hlast
  have hfields : (W.narrower user).fields ≠ [] := by
    show (Lexical.defaultFields.filterMap fun field => Lexical.longToShort.lookup field) ≠ []
    decide
  unfold Narrower.lookupFor
  rw [hphrase]
  dsimp only
  rw [if_neg (by simp [hne, hfields])]
  rfl

theorem narrowing_terms {plan : RecallPlan} {ts : List Query.Term} (hterms : plan.parsed.terms = ts.map ofTerm)
    (htext : plan.retrievalText = strip (" ".intercalate ((ts.map ofTerm).map Term.text))) (htwo : 2 ≤ ts.length)
    (hopen : Query.Unquoted W.tables ts) (hne : W.termStems ts ≠ []) (huser : q.userId ≠ "") :
    Accessor.narrowing q W.lookups plan =
      some fun pairs => ((W.narrower q.userId).idsForStems (W.salientOf (W.termStems ts)) pairs false).toOption := by
  have hstems : W.stems plan.retrievalText.toList = W.termStems ts := by
    rw [htext, ← analysis_tokenize, tokenize_retrieval]
  have hnarrowing : Accessor.narrowingText plan = plan.retrievalText := by
    unfold Accessor.narrowingText
    rw [hterms]
    match ts, htwo with
    | _ :: _ :: _, _ => rfl
  have hlast : plan.retrievalText.toList.getLast? ≠ some '"' := by
    rw [htext, toList_retrieval]
    exact hopen
  have hsome : plan.retrievalText ≠ "" := by
    intro hempty
    rw [hempty] at hstems
    exact hne hstems.symm
  unfold Accessor.narrowing
  rw [if_neg (by simp [hsome, huser]), hnarrowing]
  unfold Wiring.lookups
  rw [lookupFor_open hlast (by rw [hstems]; exact hne), hstems]
  rfl

theorem mem_found {stems : List String} (hw : (W.narrower q.userId).WrittenByIndexer) {pairs : List (String × String)}
    {found : Table String Coverage} (hok : (W.narrower q.userId).idsForStems stems pairs false = .ok found) :
    a ∈ found.keys ↔ ∃ p ∈ Lexical.principals pairs, ∃ s ∈ Lexical.asked stems,
      (W.narrower q.userId).Carries p (Lexical.collectionsOf pairs p) s a := by
  rw [← AList.mem_keys, ← AList.lookup_isSome]
  by_cases hne : Lexical.asked stems = []
  · unfold Narrower.idsForStems at hok
    rw [if_pos hne] at hok
    cases hok
    simp [hne]
  · rw [(Lexical.idsForStems_tops hw.written hok hne a).isSome]
    constructor
    · rintro ⟨n, p, hr, -⟩
      exact ⟨p, hr.given, hr.stem⟩
    · rintro ⟨p, hp, hstem⟩
      exact ⟨_, p, ⟨hp, hstem, (fun hall => Bool.noConfusion hall), (fun hphrase => Bool.noConfusion hphrase)⟩, rfl⟩

theorem refused_iff {stems : List String} {pairs : List (String × String)} (hne : Lexical.asked stems ≠ []) :
    (∃ found, (W.narrower q.userId).idsForStems stems pairs false = .ok found) ↔ ¬(W.narrower q.userId).Refused pairs := by
  unfold Narrower.idsForStems
  rw [if_neg hne]
  constructor
  · rintro ⟨found, hok⟩ ⟨p, hp, e, hd, hmissing⟩
    exact hmissing (Lexical.overOwners_ok hok p hp e hd)
  · intro hnot
    cases hres : (W.narrower q.userId).overOwners pairs (Lexical.asked stems) false (Lexical.principals pairs) ∅ with
    | ok found => exact ⟨found, rfl⟩
    | error e =>
      obtain ⟨p, hp, hd⟩ := Lexical.overOwners_error hres
      exact absurd ⟨p, hp, e, hd⟩ hnot

def Wiring.planOf (W : Wiring) (text : Text) (pred : Option ArtifactPredicate) : RecallPlan :=
  ⟨ofParsed (Query.parse W.tables text), pred,
    strip (" ".intercalate (((Query.parse W.tables text).terms.map ofTerm).map Term.text))⟩

theorem recalled_plan (hterms : (Query.parse W.tables text).terms ≠ []) :
    W.Recalled now db q text a ↔ ∃ pred scope,
      W.rest.compileFilters ((Query.parse W.tables text).filters.map ofFilter) = .ok pred ∧
      resolveAuthorizedScope now db q.userId Action.read.name pred
        ((Accessor.narrowing q W.lookups (W.planOf text pred)).map fun f contexts => (f contexts).map AList.keys) =
          .ok scope ∧
      a ∈ scope.artifactIds := by
  have hparse : W.accessor.parseQuery (String.ofList text) = ofParsed (Query.parse W.tables text) := by
    show ofParsed (Query.parse W.tables (String.ofList text).toList) = _
    rw [String.toList_ofList]
  have hsome : (ofParsed (Query.parse W.tables text)).terms.isEmpty = false := by
    unfold ofParsed
    simpa using hterms
  have hplan : ∀ b, W.accessor.planRecall (String.ofList text) b =
      (W.rest.compileFilters ((Query.parse W.tables text).filters.map ofFilter)).map (W.planOf text) := by
    intro b
    unfold Accessor.planRecall
    rw [hparse]
    show (W.rest.compileFilters ((Query.parse W.tables text).filters.map ofFilter) >>= _) = _
    cases W.rest.compileFilters ((Query.parse W.tables text).filters.map ofFilter) with
    | error e => rfl
    | ok pred =>
      show (if _ then _ else _) = _
      rw [if_neg (by simp [hsome])]
      rfl
  unfold Wiring.Recalled Accessor.narrowed
  rw [show W.accessor.narrower = some W.lookups from rfl]
  dsimp only
  rw [hplan]
  cases W.rest.compileFilters ((Query.parse W.tables text).filters.map ofFilter) with
  | error e =>
    constructor
    · rintro ⟨e, he, -⟩
      cases he
    · rintro ⟨pred, scope, hpred, -⟩
      cases hpred
  | ok pred =>
    have hnot : ¬((W.planOf text pred).parsed.terms.isEmpty && q.queryEmbedding.isEmpty) = true := by
      rw [show (W.planOf text pred).parsed = ofParsed (Query.parse W.tables text) from rfl, hsome]
      simp
    constructor
    · rintro ⟨e, he, ha⟩
      obtain ⟨plan, hplan', he⟩ := bind_ok he
      cases hplan'
      rw [if_neg hnot] at he
      split at he
      · cases he
      · rename_i scope hscope
        cases he
        exact ⟨pred, scope, rfl, hscope, ha⟩
    · rintro ⟨pred', scope, hpred, hscope, ha⟩
      cases hpred
      refine ⟨⟨W.planOf text pred, scope, Accessor.coverageOf (Accessor.narrowing q W.lookups (W.planOf text pred))
        scope.contexts, Accessor.scopedContexts q scope.contexts⟩, ?_, ha⟩
      show (if _ then _ else _) = _
      rw [if_neg hnot]
      rw [show (W.planOf text pred).predicate = pred from rfl]
      unfold Accessor.narrowing at hscope ⊢
      rw [hscope]
      rfl

theorem contexts_of {grants : List Grant} (h : getActiveGrantsForGrantee now db q.userId = .ok grants) :
    Wiring.contexts now db q = custodyContexts db .read (seedsOf grants fun m => m.allows .read)
      (seedsOf grants fun m => m.isDeny && m.carries .read) := by
  unfold Wiring.contexts
  rw [h]

/-- **What a query of two terms or more recalls.** -/
theorem recalled_iff (hw : (W.narrower q.userId).WrittenByIndexer) {ts : List Query.Term}
    (hts : (Query.parse W.tables text).terms = ts) (htwo : 2 ≤ ts.length) (hopen : Query.Unquoted W.tables ts)
    (hne : W.termStems ts ≠ []) :
    W.Recalled now db q text a ↔ (∃ found, (W.narrower q.userId).idsForStems (W.salientOf (W.termStems ts))
        (Wiring.contexts now db q) false = .ok found) ∧
      W.AtHand now db q text a ∧ W.Filed now db q (W.salientOf (W.termStems ts)) a := by
  have hterms : (Query.parse W.tables text).terms ≠ [] := by
    rw [hts]
    rintro rfl
    cases htwo
  rw [recalled_plan hterms]
  unfold Wiring.AtHand Wiring.Filed
  by_cases huser : q.userId = ""
  · -- nobody's recall enumerates nobody's cone
    refine iff_of_false ?_ fun h => h.2.1.1 huser
    rintro ⟨pred, scope, -, hscope, ha⟩
    have hlookup : ∀ plan, Accessor.narrowing q W.lookups plan = none := fun _ => if_pos (.inr huser)
    rw [hlookup] at hscope
    unfold resolveAuthorizedScope at hscope
    rw [huser] at hscope
    dsimp only [Option.map_none] at hscope
    rw [resolve_nobody] at hscope
    cases hscope
    cases ha
  · have hlookup : ∀ pred, Accessor.narrowing q W.lookups (W.planOf text pred) =
        some fun pairs => ((W.narrower q.userId).idsForStems (W.salientOf (W.termStems ts)) pairs false).toOption := by
      intro pred
      refine narrowing_terms ?_ ?_ htwo hopen hne huser
      · rw [← hts]
        rfl
      · rw [← hts]
        rfl
    simp only [hlookup, Option.map_some]
    unfold resolveAuthorizedScope
    dsimp only
    rw [grantsRead_iff]
    cases hgrants : getActiveGrantsForGrantee now db q.userId with
    | error e => simp
    | ok grants =>
      have hread : Action.ofName Action.read.name = some .read := by decide
      -- for one filter, the narrowed route
      have hroute : ∀ pred, a ∈ (narrowedScope db .read (seedsOf grants fun m => m.allows .read)
          (seedsOf grants fun m => m.isDeny && m.carries .read) pred fun contexts =>
            ((W.narrower q.userId).idsForStems (W.salientOf (W.termStems ts)) contexts false).toOption.map
              AList.keys).artifactIds ↔
          (∃ found, (W.narrower q.userId).idsForStems (W.salientOf (W.termStems ts)) (Wiring.contexts now db q) false =
            .ok found) ∧ W.Filed now db q (W.salientOf (W.termStems ts)) a ∧
          ∃ doc, shownDoc db a = some doc ∧ passes pred doc = true ∧ HoldsCustody now db q.userId .read ∧
            AllowFirst (HoldsAllow now db q.userId .read) (HoldsDeny now db q.userId .read)
              (candidateLine db .read a (rootIn doc a)) := by
        intro pred
        rw [narrowedScope_lookup, ← contexts_of hgrants]
        cases hids : (W.narrower q.userId).idsForStems (W.salientOf (W.termStems ts)) (Wiring.contexts now db q) false with
        | error e => simp [Except.toOption]
        | ok found =>
          unfold Wiring.Filed
          rw [← mem_found hw hids]
          simp [Except.toOption, mem_narrowed_iff hgrants]
      simp only [hread, Except.ok.injEq]
      constructor
      · rintro ⟨pred, scope, hpred, rfl, ha⟩
        obtain ⟨hok, hfiled, hdoc⟩ := (hroute pred).mp ha
        exact ⟨hok, ⟨huser, ⟨grants, rfl⟩, pred, hpred, hdoc⟩, hfiled⟩
      · rintro ⟨hok, ⟨-, -, pred, hpred, hdoc⟩, hfiled⟩
        exact ⟨pred, _, hpred, rfl, (hroute pred).mpr ⟨hok, hfiled, hdoc⟩⟩

/-! ### When modifiers are kept -/

theorem ofTerm_congr {x : Text} {md md' : Query.TermModifier} {b : Bool} (h : md ≠ .semantic) (h' : md' ≠ .semantic) :
    ofTerm ⟨x, md, b⟩ = ofTerm ⟨x, md', b⟩ := by
  unfold ofTerm
  simp [h, h']

theorem recalled_congr {text' : Text} (h : ofParsed (Query.parse W.tables text) = ofParsed (Query.parse W.tables text')) :
    W.Recalled now db q text a ↔ W.Recalled now db q text' a := by
  have hparse : W.accessor.parseQuery (String.ofList text) = W.accessor.parseQuery (String.ofList text') := by
    show ofParsed (Query.parse W.tables (String.ofList text).toList) = ofParsed (Query.parse W.tables (String.ofList text').toList)
    rw [String.toList_ofList, String.toList_ofList, h]
  unfold Wiring.Recalled Accessor.narrowed Accessor.planRecall
  dsimp only
  rw [hparse]
  rfl

theorem termStems_ne {ps rest : List Query.Term} {u : Query.Term} (h : W.stems u.text ≠ []) :
    W.termStems (ps ++ u :: rest) ≠ [] := by
  unfold Wiring.termStems
  rw [List.flatMap_append, List.flatMap_cons]
  simp [h]

theorem asked_salient {stems : List String} (h : Lexical.asked stems = []) {a : String} : ¬W.Filed now db q stems a := by
  rintro ⟨p, -, s, hs, -⟩
  rw [h] at hs
  cases hs

/-- **The modifiers are kept exactly where nothing is recalled.** -/
theorem modifiers_kept_iff (now : Val → Bool) (db : Store) (hw : (W.narrower q.userId).WrittenByIndexer)
    (hplain : (Query.parse W.tables text).terms ≠ []) (ht : t.Ok W.tables) (hstem : W.stems t.text ≠ [])
    (hpaired : t.isPhrase = true → Query.Paired W.tables text) :
    W.KeepsModifiers now db q text t ↔ W.NothingFound now db q text t := by
  obtain ⟨ps, rest, hsplit, hadded⟩ := Query.parse_followedBy hplain ht hpaired
  obtain ⟨md, hmd, hterms, hfilters, hopen⟩ := hadded '!' (by simp)
  obtain ⟨md', hmd', hterms', hfilters', -⟩ := hadded '+' (by simp)
  have hsame : ofParsed (Query.parse W.tables (Query.followedBy text '!' t)) =
      ofParsed (Query.parse W.tables (Query.followedBy text '+' t)) := by
    unfold ofParsed
    rw [hterms, hterms', hfilters, hfilters', List.map_append, List.map_append, List.map_cons, List.map_cons,
      ofTerm_congr hmd hmd']
  have htwo : 2 ≤ (ps ++ (⟨t.text, md, t.isPhrase⟩ : Query.Term) :: rest).length := by
    have hlen : (ps ++ rest).length ≠ 0 := by
      rw [← hsplit]
      simpa using hplain
    rw [List.length_append] at hlen ⊢
    rw [List.length_cons]
    omega
  have hsought : W.salientOf (W.termStems (ps ++ ⟨t.text, md, t.isPhrase⟩ :: rest)) = W.sought text t := by
    unfold Wiring.sought
    rw [hterms]
  have hiff : ∀ a, W.Recalled now db q (Query.followedBy text '!' t) a ↔ _ := fun a =>
    recalled_iff (a := a) hw hterms htwo hopen (termStems_ne hstem)
  rw [hsought] at hiff
  have hhand : ∀ a, W.AtHand now db q (Query.followedBy text '!' t) a ↔ W.AtHand now db q text a := by
    intro a
    unfold Wiring.AtHand
    rw [hfilters]
  constructor
  · -- what the two queries recall has the term and has it not
    intro hkept
    have hnone : ∀ a, ¬W.Recalled now db q (Query.followedBy text '!' t) a := fun a ha =>
      (hkept.excluded a ha).2 (hkept.required a ((recalled_congr hsame).mp ha))
    by_cases hask : Lexical.asked (W.sought text t) = []
    · exact .inr fun a _ => asked_salient hask
    · by_cases hrefused : (W.narrower q.userId).Refused (Wiring.contexts now db q)
      · exact .inl hrefused
      · exact .inr fun a ha hfiled => hnone a ((hiff a).mpr ⟨(refused_iff hask).mpr hrefused, (hhand a).mpr ha, hfiled⟩)
  · intro hnothing
    have hnone : ∀ a, ¬W.Recalled now db q (Query.followedBy text '!' t) a := by
      intro a ha
      obtain ⟨hok, ha, hfiled⟩ := (hiff a).mp ha
      rcases hnothing with hrefused | hall
      · by_cases hask : Lexical.asked (W.sought text t) = []
        · exact asked_salient hask hfiled
        · exact (refused_iff hask).mp hok hrefused
      · exact hall a ((hhand a).mp ha) hfiled
    exact ⟨fun a ha => absurd ha (hnone a), fun a ha => absurd ((recalled_congr hsame).mpr ha) (hnone a)⟩

end Wired

/-! ### A node with one note -/

theorem alnum_not_space {c : Char} (h : c.isAlphanum = true) : isPySpace c = false := by
  have hrange : 48 ≤ c.toNat ∧ c.toNat ≤ 57 ∨ 65 ≤ c.toNat ∧ c.toNat ≤ 90 ∨ 97 ≤ c.toNat ∧ c.toNat ≤ 122 := by
    change (decide (65 ≤ c.val ∧ c.val ≤ 90) || (decide (97 ≤ c.val) && decide (c.val ≤ 122)) ||
      (decide (48 ≤ c.val) && decide (c.val ≤ 57))) = true at h
    simp [UInt32.le_iff_toNat_le] at h
    omega
  unfold isPySpace
  dsimp only
  simp only [Bool.or_eq_false_iff, Bool.and_eq_false_iff, decide_eq_false_iff_not]
  omega

theorem no_space : (∀ e ∈ Query.capitals, isPySpace e.2 = false) ∧
    ∀ c ∈ ['"', '@', ':', '+', '!', '~', '=', '>', '<'], c.isAlphanum = false ∧ isPySpace c = false := by
  decide +kernel

theorem small_not_space {d : Char} (h : isPySpace d = false) : isPySpace (Query.asciiLower d) = false := by
  rcases Query.asciiLower_cases d with ⟨-, hsame⟩ | hcap
  · rw [hsame]
    exact h
  · exact no_space.1 (d, Query.asciiLower d) hcap

/-- The letters of ASCII, and Python's spaces. -/
def tables : CharTable where
  isSpace := isPySpace
  isAlnum := Query.ascii.isAlnum
  lower := Query.ascii.lower
  space := by decide
  alnum_space c h := alnum_not_space h
  marks := no_space.2
  underscore := by decide
  letters := Query.ascii.letters
  lower_lower := Query.ascii.lower_lower
  lower_nil := Query.ascii.lower_nil
  lower_space s h c hc := by
    obtain ⟨d, hd, rfl⟩ := List.mem_map.mp hc
    exact small_not_space (h d hd)
  lower_ascii := Query.ascii.lower_ascii

def plainWiring (postings : PostingStore) : Wiring where
  tables := tables
  spaces _ := rfl
  stem w := if w = [] then none else some w
  stem_ne {raw s} h := by
    split_ifs at h with hraw
    cases h
    exact hraw
  hmacHex := Lexical.plainAnalysis.hmacHex
  hex_ne := Lexical.plainAnalysis.hex_ne
  derive _ _ := .ok ()
  postings := postings
  salient := none
  rest := plainAccessor

def noteCalls : List Lexical.Call := [.index "c" "c" "x" [("title", "budget")] true]

def noteWiring : Wiring := plainWiring (Lexical.runAll (plainWiring .empty).analysis .empty noteCalls)

def wordsQuery : SearchQuery := ⟨"", "u", [], none, 0, 10, "relevance"⟩

theorem noteWiring_written : (noteWiring.narrower "u").WrittenByIndexer := by
  refine ⟨.empty, noteCalls, ⟨rfl, ?_⟩, ?_, rfl⟩
  · rintro p t blob ⟨⟩
  · intro k hk
    rw [List.mem_singleton.mp hk]
    rintro -
    exact nofun

theorem noteWiring_words : (∀ c ∈ "budget".toList, isPySpace c = false ∧ c ∉ ['"', '@', ':']) ∧
    (Query.parse tables "report".toList).terms = [⟨"report".toList, .none, false⟩] ∧
    noteWiring.stems "budget".toList = ["budget"] := by
  decide +kernel

theorem budget_ok : (Operand.word "budget".toList).Ok noteWiring.tables := ⟨by decide, noteWiring_words.1⟩

theorem report_terms : (Query.parse noteWiring.tables "report".toList).terms ≠ [] := by
  rw [show noteWiring.tables = tables from rfl, noteWiring_words.2.1]
  simp

theorem budget_stems : noteWiring.stems (Operand.word "budget".toList).text ≠ [] := by
  rw [show (Operand.word "budget".toList).text = "budget".toList from rfl, noteWiring_words.2.2]
  simp

theorem modifiers_kept_iff_budget :
    noteWiring.KeepsModifiers (fun _ => true) (recallNode ["c"]).db wordsQuery "report".toList (.word "budget".toList) ↔
      noteWiring.NothingFound (fun _ => true) (recallNode ["c"]).db wordsQuery "report".toList (.word "budget".toList) :=
  modifiers_kept_iff (fun _ => true) (recallNode ["c"]).db noteWiring_written report_terms budget_ok budget_stems (by rintro ⟨⟩)

theorem excluded_term_adds_note :
    ¬∀ (W : Wiring) (now : Val → Bool) (db : Store) (q : SearchQuery) (text : Text) (t : Operand),
      (W.narrower q.userId).WrittenByIndexer → (Query.parse W.tables text).terms ≠ [] → t.Ok W.tables →
        W.stems t.text ≠ [] → W.KeepsModifiers now db q text t := by
  intro h
  have hkept := h noteWiring (fun _ => true) (recallNode ["c"]).db wordsQuery "report".toList (.word "budget".toList)
    noteWiring_written report_terms budget_ok budget_stems
  obtain ⟨hmore, hless⟩ : ((noteWiring.accessor.narrowed (fun _ => true) (recallNode ["c"]).db
      { wordsQuery with queryText := String.ofList (Query.followedBy "report".toList '!' (.word "budget".toList)) }).toOption.bind
        id).any (fun e => decide ("x" ∈ e.scope.artifactIds)) = true ∧
      ((noteWiring.accessor.narrowed (fun _ => true) (recallNode ["c"]).db
        { wordsQuery with queryText := String.ofList "report".toList }).toOption.bind id).all
          (fun e => decide ("x" ∉ e.scope.artifactIds)) = true := by
    decide +kernel
  have hadded : noteWiring.Recalled (fun _ => true) (recallNode ["c"]).db wordsQuery
      (Query.followedBy "report".toList '!' (.word "budget".toList)) "x" := by
    obtain ⟨e, he, hx⟩ := (Option.any_eq_true _ _).mp hmore
    obtain ⟨o, ho, rfl⟩ := Option.bind_eq_some_iff.mp he
    exact ⟨e, ok_of_toOption ho, of_decide_eq_true hx⟩
  obtain ⟨⟨e, he, hmem⟩, -⟩ := hkept.excluded "x" hadded
  rw [he] at hless
  exact of_decide_eq_true hless hmem

end Recall

end Mantle
