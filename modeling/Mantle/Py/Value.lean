import Mathlib.Data.List.Basic
import Mathlib.Data.Int.Basic

/-!
# Mantle.Py.Value — the values a document can hold

`Val` has every value the write paths accept or refuse: `bytes` and `tuple` are no JSON values, but a caller can pass
them.
-/

namespace Mantle

/-- A float, by what the code observes of it: `repr`, the text it becomes in a TEXT column, its truncation (`none` for
`nan` and the infinities) and whether it equals that integer. -/
structure Flt where
  repr : String
  text : String
  trunc : Option ℤ
  integral : Bool
  noSlash : '/' ∉ text.toList
deriving DecidableEq, Repr

theorem noSlash_empty : '/' ∉ "".toList := by simp

inductive Key
  | str (s : String)
  | int (n : ℤ)
  | bool (b : Bool)
  | none
deriving DecidableEq, Repr

inductive Val
  | none
  | bool (b : Bool)
  | int (n : ℤ)
  | float (f : Flt)
  | str (s : String)
  | bytes (b : List ℕ)
  | list (xs : List Val)
  | tuple (xs : List Val)
  | dict (items : List (Key × Val))
deriving Repr

instance : Inhabited Val := ⟨.none⟩

/-- An exception, by its class. -/
inductive PyErr
  | typeError (msg : String)
  | valueError (msg : String)
  | attributeError (msg : String)
  | keyError (key : String)
  | overflowError
  | interfaceError
  | runtimeError (msg : String)
deriving DecidableEq, Repr

namespace Val

/-- `bool(v)`. -/
def truthy : Val → Bool
  | .none => false
  | .bool b => b
  | .int n => n ≠ 0
  | .float f => !(f.integral && f.trunc == some 0)
  | .str s => s ≠ ""
  | .bytes b => !b.isEmpty
  | .list xs => !xs.isEmpty
  | .tuple xs => !xs.isEmpty
  | .dict items => !items.isEmpty

/-- `a or b`. -/
def orElse (a b : Val) : Val := if a.truthy then a else b

def isNone : Val → Bool
  | .none => true
  | _ => false

/-- The integer of a value for which `isinstance(v, int)`; a `bool` is an `int`. -/
def asInt : Val → Option ℤ
  | .int n => some n
  | .bool b => some (if b then 1 else 0)
  | _ => Option.none

/-- The text of a value for which `isinstance(v, str)`. -/
def asStr : Val → Option String
  | .str s => some s
  | _ => Option.none

/-- `v == s` for a text `s`. -/
def eqStr (v : Val) (s : String) : Bool := v.asStr == some s

/-- `v == n` for an integer `n`. -/
def eqInt : Val → ℤ → Bool
  | .int m, n => m == n
  | .bool b, n => (if b then 1 else 0) == n
  | .float f, n => f.integral && f.trunc == some n
  | _, _ => false

@[simp] theorem truthy_str (s : String) : (Val.str s).truthy = decide (s ≠ "") := rfl
@[simp] theorem asInt_int (n : ℤ) : (Val.int n).asInt = some n := rfl
@[simp] theorem asStr_str (s : String) : (Val.str s).asStr = some s := rfl

end Val

theorem eqStr_iff {v : Val} {s : String} : v.eqStr s = true ↔ v = .str s := by
  unfold Val.eqStr Val.asStr
  cases v <;> simp

/-! ### `str` and `repr` -/

def hexDigit (n : ℕ) : Char := "0123456789abcdef".toList.getD n '0'

/-- The low `k` hexadecimal digits of a number, most significant first. -/
def hexDigits : ℕ → ℕ → List Char
  | 0, _ => []
  | k + 1, n => hexDigits k (n / 16) ++ [hexDigit (n % 16)]

def hexOfBytes (bs : List ℕ) : String := String.ofList (bs.flatMap (hexDigits 2))

def quote : Char := Char.ofNat 39

/-- One character of a `repr` under quote `q`.  In a text (`ascii = false`) a character outside
ASCII stands for itself, in a byte string it is escaped. -/
def reprChar (ascii : Bool) (q c : Char) : List Char :=
  if c = q ∨ c = '\\' then ['\\', c]
  else if c = '\n' then ['\\', 'n']
  else if c = '\r' then ['\\', 'r']
  else if c = '\t' then ['\\', 't']
  else if c.toNat < 32 ∨ c.toNat = 127 ∨ (ascii ∧ 127 < c.toNat) then
    ['\\', 'x'] ++ hexDigits 2 c.toNat
  else [c]

def reprChars (ascii : Bool) (cs : List Char) : String :=
  let q := if quote ∈ cs ∧ '"' ∉ cs then '"' else quote
  String.ofList ([q] ++ cs.flatMap (reprChar ascii q) ++ [q])

def reprStr (s : String) : String := reprChars false s.toList

def reprBool (b : Bool) : String := if b then "True" else "False"

def Key.repr : Key → String
  | .str s => reprStr s
  | .int n => toString n
  | .bool b => reprBool b
  | .none => "None"

mutual

def Val.repr : Val → String
  | .none => "None"
  | .bool b => reprBool b
  | .int n => toString n
  | .float f => f.repr
  | .str s => reprStr s
  | .bytes b => "b" ++ reprChars true (b.map Char.ofNat)
  | .list xs => "[" ++ ", ".intercalate (Val.reprList xs) ++ "]"
  | .tuple xs => "(" ++ ", ".intercalate (Val.reprList xs) ++ (if xs.length = 1 then ",)" else ")")
  | .dict items => "\x7b" ++ ", ".intercalate (Val.reprItems items) ++ "\x7d"

def Val.reprList : List Val → List String
  | [] => []
  | v :: vs => v.repr :: Val.reprList vs

def Val.reprItems : List (Key × Val) → List String
  | [] => []
  | (k, v) :: rest => (k.repr ++ ": " ++ v.repr) :: Val.reprItems rest

end

def Key.pyStr : Key → String
  | .str s => s
  | k => k.repr

def Val.pyStr : Val → String
  | .str s => s
  | v => v.repr

@[simp] theorem Val.pyStr_str (s : String) : (Val.str s).pyStr = s := rfl

/-! ### Texts are told apart by their `repr` -/

theorem hexDigit_inj : ∀ m n : Fin 16, hexDigit m = hexDigit n → m = n := by decide +kernel

theorem hexDigits_two_inj {m n : ℕ} (hm : m < 256) (hn : n < 256) (h : hexDigits 2 m = hexDigits 2 n) :
    m = n := by
  have hpair : ∀ k : ℕ, hexDigits 2 k = [hexDigit (k / 16 % 16), hexDigit (k % 16)] := fun _ => rfl
  rw [hpair, hpair, List.cons.injEq, List.cons.injEq] at h
  have h1 := hexDigit_inj ⟨m / 16 % 16, by omega⟩ ⟨n / 16 % 16, by omega⟩ h.1
  have h2 := hexDigit_inj ⟨m % 16, by omega⟩ ⟨n % 16, by omega⟩ h.2.1
  rw [Fin.mk.injEq] at h1 h2
  omega

theorem reprChar_ne_nil (q c : Char) : reprChar false q c ≠ [] := by
  unfold reprChar
  split_ifs <;> simp

theorem reprChar_cancel {q c d : Char} (hq : q = quote ∨ q = '"') {xs ys : List Char}
    (h : reprChar false q c ++ xs = reprChar false q d ++ ys) : c = d ∧ xs = ys := by
  have hesc : q ≠ 'n' ∧ q ≠ 'r' ∧ q ≠ 't' ∧ q ≠ 'x' ∧ q ≠ '\\' := by
    rcases hq with rfl | rfl <;> decide
  have hhex : (c.toNat < 32 ∨ c.toNat = 127) → (d.toNat < 32 ∨ d.toNat = 127) →
      hexDigits 2 c.toNat = hexDigits 2 d.toNat → c = d := by
    intro hc hd hcd
    have hnat : c.toNat = d.toNat := hexDigits_two_inj (by omega) (by omega) hcd
    exact Char.ext (UInt32.toNat_inj.mp hnat)
  have hpair : ∀ k : ℕ, hexDigits 2 k = [hexDigit (k / 16 % 16), hexDigit (k % 16)] := fun _ => rfl
  rw [hpair, hpair] at hhex
  unfold reprChar at h
  simp only [Bool.false_eq_true, false_and, or_false] at h
  rw [hpair, hpair] at h
  -- an escape is told by its second character
  split_ifs at h <;> simp only [List.cons_append, List.nil_append, List.cons.injEq] at h <;> grind

theorem flatMap_reprChar_inj {q : Char} (hq : q = quote ∨ q = '"') :
    ∀ {cs ds : List Char}, cs.flatMap (reprChar false q) = ds.flatMap (reprChar false q) → cs = ds
  | [], [], _ => rfl
  | c :: cs, d :: ds, h => by
    rw [List.flatMap_cons, List.flatMap_cons] at h
    obtain ⟨rfl, h'⟩ := reprChar_cancel hq h
    rw [flatMap_reprChar_inj hq h']
  | [], d :: ds, h => by
    rw [List.flatMap_cons] at h
    exact absurd (List.append_eq_nil_iff.mp h.symm).1 (reprChar_ne_nil q d)
  | c :: cs, [], h => by
    rw [List.flatMap_cons] at h
    exact absurd (List.append_eq_nil_iff.mp h).1 (reprChar_ne_nil q c)

theorem reprStr_injective : Function.Injective reprStr := by
  intro s t h
  have hquote : ∀ cs : List Char, ∃ q, (q = quote ∨ q = '"') ∧
      reprChars false cs = String.ofList (q :: (cs.flatMap (reprChar false q) ++ [q])) := by
    intro cs
    refine ⟨if quote ∈ cs ∧ '"' ∉ cs then '"' else quote, ?_, rfl⟩
    split_ifs
    · exact .inr rfl
    · exact .inl rfl
  obtain ⟨q, hq, hs⟩ := hquote s.toList
  obtain ⟨q', -, ht⟩ := hquote t.toList
  unfold reprStr at h
  rw [hs, ht] at h
  have hlist := congrArg String.toList h
  rw [String.toList_ofList, String.toList_ofList, List.cons.injEq] at hlist
  obtain ⟨rfl, hbody⟩ := hlist
  exact String.toList_inj.mp (flatMap_reprChar_inj hq (List.append_cancel_right hbody))

/-! ### Texts -/

/-- The characters `str.strip` removes. -/
def isPySpace (c : Char) : Bool :=
  let n := c.toNat
  (9 ≤ n && n ≤ 13) || (28 ≤ n && n ≤ 32) || n = 0x85 || n = 0xA0 || n = 0x1680 ||
    (0x2000 ≤ n && n ≤ 0x200A) || n = 0x2028 || n = 0x2029 || n = 0x202F || n = 0x205F || n = 0x3000

/-- `s.strip().lower()`.  Only texts of ASCII letters other than `k` are compared with the result. -/
def normText (s : String) : String :=
  String.ofList (((s.toList.dropWhile isPySpace).reverse.dropWhile isPySpace).reverse.map Char.toLower)

/-! ### Documents -/

/-- A dictionary under text keys, in insertion order. -/
abbrev Doc := List (String × Val)

namespace Doc

/-- `d[k]`, when the key is there. -/
def find? : Doc → String → Option Val
  | [], _ => none
  | (k, v) :: d, x => if k = x then some v else find? d x

def get (d : Doc) (k : String) : Val := (find? d k).getD .none

/-- `d[k] = v`: an existing key keeps its place. -/
def set : Doc → String → Val → Doc
  | [], k, v => [(k, v)]
  | (k', v') :: d, k, v => if k' = k then (k, v) :: d else (k', v') :: set d k v

/-- `d` without the keys that satisfy `p`. -/
def without (d : Doc) (p : String → Bool) : Doc := d.filter fun e => !p e.1

theorem find?_set (d : Doc) (k k' : String) (v : Val) :
    (d.set k v).find? k' = if k' = k then some v else d.find? k' := by
  induction d with
  | nil =>
    simp only [set, find?]
    by_cases h : k = k'
    · rw [if_pos h, if_pos h.symm]
    · rw [if_neg h, if_neg (fun e => h e.symm)]
  | cons e d ih =>
    obtain ⟨k₀, v₀⟩ := e
    by_cases h : k₀ = k
    · subst h
      by_cases h' : k₀ = k'
      · simp [set, find?, h']
      · have h'' : ¬k' = k₀ := fun e => h' e.symm
        simp [set, find?, h', h'']
    · by_cases h' : k₀ = k'
      · subst h'
        simp [set, find?, h]
      · simp [set, find?, h, h', ih]

@[simp] theorem get_set_self (d : Doc) (k : String) (v : Val) : (d.set k v).get k = v := by
  simp [get, find?_set]

theorem get_set_of_ne (d : Doc) {k k' : String} (v : Val) (h : k' ≠ k) :
    (d.set k v).get k' = d.get k' := by
  simp [get, find?_set, h]

def update (d e : Doc) : Doc := e.foldl (fun acc kv => acc.set kv.1 kv.2) d

end Doc

/-- A dictionary with the texts of its keys. -/
def docOfItems (items : List (Key × Val)) : Doc := items.map fun e => (e.1.pyStr, e.2)

end Mantle
