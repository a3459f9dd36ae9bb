import Mantle.Py.Json

/-!
# Mantle.Py.JsonLoads — `json.loads`

Strict texts, `NaN` and the infinities accepted, of two equal keys the later value stands.  How a literal with a
fraction or an exponent becomes a float is a parameter.
-/

namespace Mantle.Json

/-- JSON whitespace. -/
def isWs (c : Char) : Bool := c = ' ' || c = '\t' || c = '\n' || c = '\r'

def skipWs (cs : List Char) : List Char := cs.dropWhile isWs

/-! ### Texts -/

def hexVal (c : Char) : Option ℕ :=
  if '0' ≤ c ∧ c ≤ '9' then some (c.toNat - '0'.toNat)
  else if 'a' ≤ c ∧ c ≤ 'f' then some (c.toNat - 'a'.toNat + 10)
  else if 'A' ≤ c ∧ c ≤ 'F' then some (c.toNat - 'A'.toNat + 10)
  else none

/-- Four hexadecimal digits. -/
def hex4 : List Char → Option (ℕ × List Char)
  | a :: b :: c :: d :: rest =>
    match hexVal a, hexVal b, hexVal c, hexVal d with
    | some w, some x, some y, some z => some (((w * 16 + x) * 16 + y) * 16 + z, rest)
    | _, _, _, _ => none
  | _ => none

def unitChar (n : ℕ) : Char := if 0xD800 ≤ n ∧ n < 0xE000 then Char.ofNat 0xFFFD else Char.ofNat n

/-- What `\u` stands for: one code unit, or a surrogate pair. -/
def escapedUnit (cs : List Char) : Option (Char × List Char) :=
  match hex4 cs with
  | none => none
  | some (hi, rest) =>
    if 0xD800 ≤ hi ∧ hi < 0xDC00 then
      match rest with
      | '\\' :: 'u' :: rest' =>
        match hex4 rest' with
        | some (lo, rest'') =>
          if 0xDC00 ≤ lo ∧ lo < 0xE000 then
            some (Char.ofNat (0x10000 + (hi - 0xD800) * 1024 + (lo - 0xDC00)), rest'')
          else some (unitChar hi, rest)
        | none => some (unitChar hi, rest)
      | _ => some (unitChar hi, rest)
    else some (unitChar hi, rest)

def simpleEscape : Char → Option Char
  | '"' => some '"'
  | '\\' => some '\\'
  | '/' => some '/'
  | 'b' => some (Char.ofNat 8)
  | 'f' => some (Char.ofNat 12)
  | 'n' => some '\n'
  | 'r' => some '\r'
  | 't' => some '\t'
  | _ => none

def text : ℕ → List Char → List Char → Option (String × List Char)
  | 0, _, _ => none
  | fuel + 1, acc, cs =>
    match cs with
    | [] => none
    | '"' :: rest => some (String.ofList acc.reverse, rest)
    | '\\' :: 'u' :: rest =>
      match escapedUnit rest with
      | some (c, rest') => text fuel (c :: acc) rest'
      | none => none
    | '\\' :: e :: rest =>
      match simpleEscape e with
      | some c => text fuel (c :: acc) rest
      | none => none
    | c :: rest => if c.toNat < 32 ∨ c = '\\' then none else text fuel (c :: acc) rest

/-! ### Numbers -/

def digits (cs : List Char) : List Char × List Char := cs.span Char.isDigit

def intPart (cs : List Char) : Option (List Char × List Char) :=
  match digits cs with
  | ([], _) => none
  | ('0' :: _, _) => some (['0'], cs.drop 1)
  | (ds, rest) => some (ds, rest)

def fracPart (cs : List Char) : List Char × List Char :=
  match cs with
  | '.' :: rest =>
    match digits rest with
    | ([], _) => ([], cs)
    | (ds, rest') => ('.' :: ds, rest')
  | _ => ([], cs)

/-- An exponent, when a digit follows it. -/
def expPart (cs : List Char) : List Char × List Char :=
  match cs with
  | e :: rest =>
    if e = 'e' ∨ e = 'E' then
      let (sign, rest') := match rest with
        | '+' :: r => (['+'], r)
        | '-' :: r => (['-'], r)
        | r => ([], r)
      match digits rest' with
      | ([], _) => ([], cs)
      | (ds, rest'') => (e :: sign ++ ds, rest'')
    else ([], cs)
  | [] => ([], cs)

section Reader

variable (float : String → Flt)

def number (cs : List Char) : Option (Val × List Char) :=
  let (sign, rest) := match cs with
    | '-' :: r => (['-'], r)
    | r => ([], r)
  match intPart rest with
  | none => none
  | some (ds, rest) =>
    let (frac, rest) := fracPart rest
    let (ex, rest) := expPart rest
    if frac.isEmpty ∧ ex.isEmpty then
      let n : ℤ := (parseDigits ds)
      some (.int (if sign.isEmpty then n else -n), rest)
    else some (.float (float (String.ofList (sign ++ ds ++ frac ++ ex))), rest)
where
  parseDigits (ds : List Char) : ℕ := ds.foldl (fun n d => n * 10 + (d.toNat - '0'.toNat)) 0

def literals : List (String × Val) :=
  [("null", .none), ("true", .bool true), ("false", .bool false), ("NaN", .float (float "NaN")),
   ("Infinity", .float (float "Infinity")), ("-Infinity", .float (float "-Infinity"))]

def literal (cs : List Char) : Option (Val × List Char) :=
  (literals float).findSome? fun l =>
    if l.1.toList.isPrefixOf cs then some (l.2, cs.drop l.1.length) else none

mutual

def value : ℕ → List Char → Option (Val × List Char)
  | 0, _ => none
  | fuel + 1, cs =>
    match cs with
    | '"' :: rest => (text (rest.length + 1) [] rest).map fun r => (.str r.1, r.2)
    | '[' :: rest =>
      match skipWs rest with
      | ']' :: rest' => some (.list [], rest')
      | rest' => (items fuel [] rest').map fun r => (.list r.1, r.2)
    | '\x7b' :: rest =>
      match skipWs rest with
      | '\x7d' :: rest' => some (.dict [], rest')
      | rest' => (members fuel [] rest').map fun r => (.dict r.1, r.2)
    | _ => (literal float cs).orElse fun _ => number float cs

def items : ℕ → List Val → List Char → Option (List Val × List Char)
  | 0, _, _ => none
  | fuel + 1, acc, cs =>
    match value fuel cs with
    | none => none
    | some (v, rest) =>
      match skipWs rest with
      | ']' :: rest' => some (acc ++ [v], rest')
      | ',' :: rest' => items fuel (acc ++ [v]) (skipWs rest')
      | _ => none

def members : ℕ → List (Key × Val) → List Char → Option (List (Key × Val) × List Char)
  | 0, _, _ => none
  | fuel + 1, acc, cs =>
    match cs with
    | '"' :: rest =>
      match text (rest.length + 1) [] rest with
      | none => none
      | some (k, rest) =>
        match skipWs rest with
        | ':' :: rest' =>
          match value fuel (skipWs rest') with
          | none => none
          | some (v, rest'') =>
            match skipWs rest'' with
            | '\x7d' :: r => some (setItem acc (.str k) v, r)
            | ',' :: r => members fuel (setItem acc (.str k) v) (skipWs r)
            | _ => none
        | _ => none
    | _ => none

end

/-- `json.loads(s)`; `none` is a `JSONDecodeError`. -/
def loads (s : String) : Option Val :=
  let cs := s.toList
  if cs.head? = some (Char.ofNat 0xFEFF) then none
  else
    match value float (cs.length + 1) (skipWs cs) with
    | some (v, rest) => if (skipWs rest).isEmpty then some v else none
    | none => none

end Reader

example : ((loads (fun s => ⟨s, "", none, false, by simp⟩) " [\"read\" , \"a\\u0041\", -12, [ ]]").bind
    fun v => (v.dumps .minified).toOption) = some "[\"read\",\"aA\",-12,[]]" := by decide +kernel

end Mantle.Json
