import Mantle.Base.Scan
import Mathlib.Data.List.Basic

/-!
# Mantle.Search.Query — query strings (`search/query_parser.py`)

A query is read in three passes: controls are taken out of the text, field filters out of its tokens, and terms out of
what is left.
-/

namespace Mantle

namespace Query

abbrev Text := List Char

/-- What Python's strings know of characters: `str.isspace` (and `\s`), `str.isalnum`, `str.lower`. -/
structure CharTable where
  isSpace : Char → Bool
  isAlnum : Char → Bool
  lower : Text → Text
  space : isSpace ' ' = true
  alnum_space : ∀ c, isAlnum c = true → isSpace c = false
  marks : ∀ c ∈ ['"', '@', ':', '+', '!', '~', '=', '>', '<'], isAlnum c = false ∧ isSpace c = false
  underscore : isSpace '_' = false
  letters : ∀ c : Char, c.isLower = true → isAlnum c = true
  lower_lower : ∀ s, lower (lower s) = lower s
  lower_nil : ∀ s, lower s = [] ↔ s = []
  lower_space : ∀ s, (∀ c ∈ s, isSpace c = false) → ∀ c ∈ lower s, isSpace c = false
  lower_ascii : ∀ s : Text, (∀ c ∈ s, c.isLower = true ∨ c = '_') → lower s = s

/-! ### What a query holds -/

inductive TermModifier
  | none
  | required
  | excluded
  | semantic
  | exact
deriving DecidableEq, Repr

inductive FieldOperator
  | equals
  | gt
  | lt
  | semantic
  | exact
deriving DecidableEq, Repr

structure Term where
  text : Text
  modifier : TermModifier
  isPhrase : Bool
deriving DecidableEq

structure FieldFilter where
  field : Text
  value : Text
  operator : FieldOperator
  negated : Bool
deriving DecidableEq

structure ParsedQuery where
  terms : List Term
  filters : List FieldFilter
  /-- A dict, in the order the names first came. -/
  controls : List (Text × Text)
  corrections : List Text
  rawQuery : Text

/-! ### The canonical spelling -/

def TermModifier.mark : TermModifier → Text
  | .none => []
  | .required => ['+']
  | .excluded => ['!']
  | .semantic => ['~']
  | .exact => ['=']

def Term.str (t : Term) : Text :=
  if t.isPhrase then t.modifier.mark ++ '"' :: t.text ++ ['"'] else t.modifier.mark ++ t.text

def FieldOperator.mark : FieldOperator → Text
  | .equals => []
  | .gt => ['>']
  | .lt => ['<']
  | .semantic => ['~']
  | .exact => ['=']

def FieldFilter.str (f : FieldFilter) : Text :=
  let neg : Text := if f.negated then ['!'] else []
  if f.operator = .exact then neg ++ f.field ++ [':', '=', '"'] ++ f.value ++ ['"']
  else neg ++ f.field ++ ':' :: f.operator.mark ++ f.value

/-- `f"@{k}:{v}"`. -/
def controlStr (c : Text × Text) : Text := '@' :: c.1 ++ ':' :: c.2

def ParsedQuery.str (p : ParsedQuery) : Text :=
  Scan.join ' ' ((if p.terms = [] then [] else [Scan.join ' ' (p.terms.map Term.str)]) ++
    (if p.filters = [] then [] else [Scan.join ' ' (p.filters.map FieldFilter.str)]) ++ p.controls.map controlStr)

/-! ### The fields (`field_filters.py`) -/

/-- The keys of `FILTERABLE_FIELDS`. -/
def filterableFields : List Text :=
  ["id".toList, "root_id".toList, "collection_id".toList, "content_type".toList, "owner_id".toList, "title".toList,
   "description".toList, "tags".toList, "created_at".toList, "updated_at".toList]

def fieldAliases : List (Text × Text) := [("tag".toList, "tags".toList), ("type".toList, "content_type".toList)]

/-- The keys of `REFUSED_FIELDS`. -/
def refusedFields : List Text := ["state".toList, "content".toList, "size".toList, "filename".toList]

def canonical (field : Text) : Text := (fieldAliases.lookup field).getD field

section Parse

variable (U : CharTable)

def isFilterField (word : Text) : Bool :=
  let field := canonical (U.lower word)
  decide (field ∈ filterableFields) || decide (field ∈ refusedFields)

/-- `\w`. -/
def isWord (c : Char) : Bool := U.isAlnum c || c = '_'

/-! ### Controls -/

/-- `@(\w+):(\S+)` at the start of a text, and how long the match is. -/
def controlAt : Text → Option ((Text × Text) × ℕ)
  | '@' :: s =>
    let name := s.takeWhile (isWord U)
    match s.dropWhile (isWord U) with
    | ':' :: s' =>
      let value := s'.takeWhile fun c => !U.isSpace c
      if name = [] || value = [] then none else some ((name, value), name.length + value.length + 2)
    | _ => none
  | _ => none

def dictSet (k v : Text) : List (Text × Text) → List (Text × Text)
  | [] => [(k, v)]
  | e :: d => if e.1 = k then (k, v) :: d else e :: dictSet k v d

/-- The matches of `CONTROL_PATTERN`. -/
def findControls (query : Text) : List (Text × Text) := Scan.findAll (controlAt U) 0 query

def extractControls (query : Text) : Text × List (Text × Text) :=
  (Scan.strip U.isSpace ((findControls U query).foldl (fun remaining m => Scan.replaceFirst (controlStr m) remaining) query),
    (findControls U query).foldl (fun controls m => dictSet (U.lower m.1) (U.lower m.2) controls) [])

/-! ### Filters -/

/-- `_tokenize_preserving_quotes`, from the token that is open on. -/
def tokenize (current : Text) (inQuotes : Bool) : Text → List Text
  | [] => if current = [] then [] else [current]
  | c :: s =>
    if c = '"' then
      if inQuotes then (current ++ [c]) :: tokenize [] false s
      else (if current = [] then [] else [current]) ++ tokenize [c] true s
    else if U.isSpace c && !inQuotes then (if current = [] then [] else [current]) ++ tokenize [] false s
    else tokenize (current ++ [c]) inQuotes s

def quoteEnds (s : Text) : Bool := decide (s.head? = some '"') && decide (s.getLast? = some '"')

/-- `s[1:-1]`. -/
def inner (s : Text) : Text := s.tail.dropLast

/-- The operator of what follows the colon, the value, and whether the next token was taken for it. -/
def operatorOf (rest : Text) (next : Option Text) : FieldOperator × Text × Bool :=
  match rest with
  | '~' :: value => (.semantic, value, false)
  | '=' :: value =>
    if value = [] then
      match next with
      | some token => if quoteEnds token then (.exact, inner token, true) else (.exact, [], false)
      | none => (.exact, [], false)
    else (.exact, value, false)
  | '>' :: value => (.gt, value, false)
  | '<' :: value => (.lt, value, false)
  | value => (.equals, value, false)

/-- Whether a token is negated, its field in its normal form, and what follows the first colon. -/
def splitField (token : Text) : Option (Bool × Text × Text) :=
  let negated := decide (token.head? = some '!')
  let token := if negated then token.tail else token
  if ':' ∉ token then none
  else
    let field := token.takeWhile (· ≠ ':')
    let rest := (token.dropWhile (· ≠ ':')).tail
    let letters := field.filter (· ≠ '_')
    if field = [] || !(decide (letters ≠ []) && letters.all U.isAlnum) then none
    else if !isFilterField U field then none
    else some (negated, if U.lower field = "tag".toList then "tags".toList else U.lower field, rest)

/-- `_parse_field_filter_advanced`: the filter, and whether the next token was taken. -/
def parseFieldFilterAdvanced (token : Text) (next : Option Text) : Option (FieldFilter × Bool) :=
  match splitField U token with
  | none => none
  | some (negated, field, rest) =>
    let (operator, value, consumed) := operatorOf rest next
    let value := if quoteEnds value then inner value else value
    if value = [] then none else some (⟨field, value, operator, negated⟩, consumed)

def filterAt (token : Text) (next : Option Text) : Option (FieldFilter × Bool) :=
  if decide (':' ∈ token) && !decide (token.head? = some '"') then parseFieldFilterAdvanced U token next else none

/-- The loop of `_extract_filters`: the tokens left, and the filters; `skip` where a token was taken. -/
def extractFilters (skip : Bool) : List Text → List Text × List FieldFilter
  | [] => ([], [])
  | token :: tokens =>
    if skip then extractFilters false tokens
    else
      match filterAt U token tokens.head? with
      | some (f, consumed) =>
        let r := extractFilters consumed tokens
        (r.1, f :: r.2)
      | none =>
        let r := extractFilters false tokens
        (token :: r.1, r.2)

/-! ### Terms -/

def parseModifier : Char → TermModifier
  | '+' => .required
  | '!' => .excluded
  | '~' => .semantic
  | '=' => .exact
  | _ => .none

/-- `"([^"]+)"` at the start of a text: what is between the quotes. -/
def quotedAt : Text → Option Text
  | '"' :: s =>
    let text := s.takeWhile (· ≠ '"')
    if text = [] || s.dropWhile (· ≠ '"') = [] then none else some text
  | _ => none

/-- `([+!~=])?"([^"]+)"` at the start of a text: the phrase, and how long the match is. -/
def phraseAt : Text → Option (Term × ℕ)
  | [] => none
  | c :: s =>
    if c ∈ ['+', '!', '~', '='] then (quotedAt s).map fun text => (⟨text, parseModifier c, true⟩, text.length + 3)
    else (quotedAt (c :: s)).map fun text => (⟨text, .none, true⟩, text.length + 2)

def termOf (token : Text) : Option (Term × Option Text) :=
  let modifier := match token.head? with
    | some c => parseModifier c
    | none => .none
  let text := if modifier = .none then token else token.tail
  if text = [] then none
  else if ' ' ∈ text && (decide (modifier = .required) || decide (modifier = .semantic)) then
    some (⟨text, modifier, true⟩,
      some (token ++ " -> ".toList ++ (if modifier = .required then ['r'] else ['s']) ++ '"' :: text ++ ['"']))
  else some (⟨text, modifier, false⟩, none)

/-- `_extract_terms`, and the corrections. -/
def extractTerms (query : Text) : List Term × List Text :=
  let phrases := Scan.findAll phraseAt 0 query
  let remaining := phrases.foldl (fun remaining t => Scan.replaceFirst t.str remaining) query
  let plain := (Scan.words U.isSpace [] remaining).filterMap termOf
  (phrases ++ plain.map Prod.fst, plain.filterMap Prod.snd)

def parse (query : Text) : ParsedQuery :=
  if Scan.strip U.isSpace query = [] then ⟨[], [], [], [], query⟩
  else
    let (remaining, controls) := extractControls U query
    let (tokens, filters) := extractFilters U false (tokenize U [] false remaining)
    let (terms, corrections) := extractTerms U (Scan.join ' ' tokens)
    ⟨terms, filters, controls, corrections, Scan.strip U.isSpace query⟩

end Parse

end Query

end Mantle
