import Mantle.Py.Value

/-!
# Mantle.Py.Json — `json.dumps`, and what `json.loads` makes of its output

`dumps` is the serializer of the standard library.  What comes back from `json.loads(json.dumps(v))` is `Val.norm v`:
tuples are lists, keys are texts, and of two keys with one text the later value stands.
-/

namespace Mantle

def utf8 (s : String) : List ℕ := s.toUTF8.toList.map UInt8.toNat

/-! ### Texts -/

def jsonEscape (n : ℕ) : List Char := ['\\', 'u'] ++ hexDigits 4 n

/-- One character of a JSON string with `ensure_ascii`. -/
def jsonChar (c : Char) : List Char :=
  if c = '"' ∨ c = '\\' then ['\\', c]
  else if c = '\n' then ['\\', 'n']
  else if c = '\r' then ['\\', 'r']
  else if c = '\t' then ['\\', 't']
  else if c.toNat = 8 then ['\\', 'b']
  else if c.toNat = 12 then ['\\', 'f']
  else if 32 ≤ c.toNat ∧ c.toNat < 127 then [c]
  else if c.toNat < 65536 then jsonEscape c.toNat
  else
    -- beyond the basic plane: a surrogate pair
    let n := c.toNat - 65536
    jsonEscape (55296 + n / 1024) ++ jsonEscape (56320 + n % 1024)

def jsonString (s : String) : String := String.ofList (['"'] ++ s.toList.flatMap jsonChar ++ ['"'])

def Key.json : Key → String
  | .str s => s
  | .int n => toString n
  | .bool b => if b then "true" else "false"
  | .none => "null"

/-! ### Sorting keys -/

def Key.num : Key → ℤ
  | .int n => n
  | .bool b => if b then 1 else 0
  | _ => 0

/-- `a <= b` on keys; `none` where the language does not order the two. -/
def Key.le? : Key → Key → Option Bool
  | .str a, .str b => some (decide (a ≤ b))
  | .str _, _ => Option.none
  | _, .str _ => Option.none
  | .none, _ => Option.none
  | _, .none => Option.none
  | a, b => some (decide (a.num ≤ b.num))

def insertItem {α : Type} (e : Key × α) : List (Key × α) → Except PyErr (List (Key × α))
  | [] => .ok [e]
  | x :: xs =>
    match Key.le? e.1 x.1 with
    | Option.none => .error (.typeError "'<' not supported between keys of these types")
    | some true => .ok (e :: x :: xs)
    | some false => (insertItem e xs).map (x :: ·)

/-- `sorted(d.items())`: fails on keys that do not compare. -/
def sortItems {α : Type} : List (Key × α) → Except PyErr (List (Key × α))
  | [] => .ok []
  | e :: es => (sortItems es).bind (insertItem e)

/-! ### `json.dumps` -/

/-- The separators and key order of one call. -/
structure JsonStyle where
  item : String
  colon : String
  sortKeys : Bool
deriving DecidableEq, Repr

/-- `json.dumps(v)`. -/
def JsonStyle.plain : JsonStyle := ⟨", ", ": ", false⟩

/-- `json.dumps(v, sort_keys=True, separators=(",", ":"))`. -/
def JsonStyle.canonical : JsonStyle := ⟨",", ":", true⟩

/-- The text SQLite's JSON functions write. -/
def JsonStyle.minified : JsonStyle := ⟨",", ":", false⟩

def jsonObject (st : JsonStyle) (items : List (Key × String)) : String :=
  "\x7b" ++ st.item.intercalate (items.map fun e => jsonString e.1.json ++ st.colon ++ e.2) ++ "\x7d"

mutual

def Val.dumps (st : JsonStyle) : Val → Except PyErr String
  | .none => .ok "null"
  | .bool b => .ok (if b then "true" else "false")
  | .int n => .ok (toString n)
  | .float f => .ok f.repr
  | .str s => .ok (jsonString s)
  | .bytes _ => .error (.typeError "Object of type bytes is not JSON serializable")
  | .list xs => (Val.dumpsList st xs).map fun ys => "[" ++ st.item.intercalate ys ++ "]"
  | .tuple xs => (Val.dumpsList st xs).map fun ys => "[" ++ st.item.intercalate ys ++ "]"
  | .dict items =>
    (Val.dumpsItems st items).bind fun es =>
      (if st.sortKeys then sortItems es else .ok es).map (jsonObject st)

def Val.dumpsList (st : JsonStyle) : List Val → Except PyErr (List String)
  | [] => .ok []
  | v :: vs => (v.dumps st).bind fun s => (Val.dumpsList st vs).map (s :: ·)

def Val.dumpsItems (st : JsonStyle) : List (Key × Val) → Except PyErr (List (Key × String))
  | [] => .ok []
  | (k, v) :: rest => (v.dumps st).bind fun s => (Val.dumpsItems st rest).map ((k, s) :: ·)

end

/-! ### `json.loads` of the output -/

/-- `d[k] = v` on a dictionary being read. -/
def setItem : List (Key × Val) → Key → Val → List (Key × Val)
  | [], k, v => [(k, v)]
  | (k', v') :: rest, k, v => if k' = k then (k, v) :: rest else (k', v') :: setItem rest k v

mutual

/-- What `json.loads(json.dumps(v))` returns when `v` is serializable. -/
def Val.norm : Val → Val
  | .list xs => .list (Val.normList xs)
  | .tuple xs => .list (Val.normList xs)
  | .dict items => .dict ((Val.normItems items).foldl (fun d e => setItem d e.1 e.2) [])
  | v => v

def Val.normList : List Val → List Val
  | [] => []
  | v :: vs => v.norm :: Val.normList vs

def Val.normItems : List (Key × Val) → List (Key × Val)
  | [] => []
  | (k, v) :: rest => (.str k.json, v.norm) :: Val.normItems rest

end

/-! ### Documents -/

namespace Doc

def toItems (d : Doc) : List (Key × Val) := d.map fun e => (.str e.1, e.2)

def dumps (st : JsonStyle) (d : Doc) : Except PyErr String := (Val.dict d.toItems).dumps st

/-- A document as it is read back from its JSON text. -/
def norm (d : Doc) : Doc := d.map fun e => (e.1, e.2.norm)

theorem find?_norm (d : Doc) (k : String) : d.norm.find? k = (d.find? k).map Val.norm := by
  induction d with
  | nil => rfl
  | cons e d ih =>
    obtain ⟨k₀, v₀⟩ := e
    by_cases h : k₀ = k
    · simp [norm, find?, h]
    · simpa [norm, find?, h] using ih

theorem get_norm (d : Doc) (k : String) : d.norm.get k = (d.get k).norm := by
  unfold get
  rw [find?_norm]
  cases d.find? k <;> rfl

end Doc

/-- A column that holds a JSON object: the text, and the dictionary `json.loads` reads from it. -/
structure JsonCol where
  text : String
  val : Doc
deriving Repr

/-- `json.dumps(d)`, stored. -/
def Doc.toCol (d : Doc) : Except PyErr JsonCol :=
  (d.dumps .plain).map fun t => ⟨t, d.norm⟩

theorem Doc.toCol_ok {d : Doc} {c : JsonCol} (h : d.toCol = .ok c) : c.val = d.norm := by
  unfold Doc.toCol at h
  cases hd : d.dumps .plain with
  | error e =>
    rw [hd] at h
    cases h
  | ok t =>
    rw [hd] at h
    cases h
    rfl

end Mantle
