import Mantle.Py.JsonLoads
import Mathlib.Data.List.Infix

/-!
# Mantle.Access.Mask — actions, and the one authority both encodings are views of

A mask says which actions it carries, and whether it is an allow at all; the meet only removes.
-/

namespace Mantle

inductive Action
  | create
  | read
  | update
  | delete
  | evict
  | invoke
  | add
  | share
  | admin
deriving DecidableEq, Repr

namespace Action

/-- `ACTIONS`, in CRUDEASIO order. -/
def all : List Action := [.create, .read, .update, .delete, .evict, .invoke, .add, .share, .admin]

def name : Action → String
  | .create => "create"
  | .read => "read"
  | .update => "update"
  | .delete => "delete"
  | .evict => "evict"
  | .invoke => "invoke"
  | .add => "add"
  | .share => "share"
  | .admin => "admin"

def ofName (s : String) : Option Action := all.find? fun a => a.name = s

def flag (a : Action) : String := "can_" ++ a.name

theorem ofName_name (a : Action) : ofName a.name = some a := by
  cases a <;> decide

theorem name_of_ofName {s : String} {a : Action} (h : ofName s = some a) : a.name = s := by
  simpa using List.find?_some h

end Action

structure Mask where
  carries : Action → Bool
  isAllow : Bool

namespace Mask

def isDeny (m : Mask) : Bool := !m.isAllow

def allows (m : Mask) (a : Action) : Bool := m.isAllow && m.carries a

def top : Mask := ⟨fun _ => true, true⟩

/-- `Mask.of(names)`: unknown names are dropped. -/
def ofNames (names : List String) : Mask := ⟨fun a => decide (a.name ∈ names), true⟩

/-- `a & b`. -/
def meet (a b : Mask) : Mask := ⟨fun x => a.carries x && b.carries x, a.isAllow && b.isAllow⟩

theorem allows_meet (m m' : Mask) (a : Action) :
    (m.meet m').allows a = (m.allows a && m'.allows a) := by
  simp only [allows, meet]
  cases m.isAllow <;> cases m'.isAllow <;> simp

end Mask

/-- `json.loads` where only the texts of the items matter: no float is the name of an action. -/
def loadsNames (s : String) : Option Val := Json.loads (fun lit => ⟨lit, "", none, false, noSlash_empty⟩) s

def startsArray (s : String) : Bool := s.toList.head? == some '['

def Mask.ofText (s : String) : Mask :=
  let bare := Mask.ofNames ((Action.all.filter fun a => decide (a.name.toList <:+: s.toList)).map
    Action.name)
  if startsArray s then
    match loadsNames s with
    | some (.list xs) => .ofNames (xs.map Val.pyStr)
    | _ => bare
  else bare

def Mask.fromPropagate : Val → Mask
  | .none => .top
  | .dict items => .ofNames (items.map fun e => e.1.pyStr)
  | .list xs => .ofNames (xs.map Val.pyStr)
  | .tuple xs => .ofNames (xs.map Val.pyStr)
  | v => .ofText v.pyStr

/-- `_prop_mask`, of the attribute's value. -/
def propMask (v : Val) : Val :=
  match v with
  | .str s => if startsArray s then (loadsNames s).getD v else v
  | _ => v

def propagates (column : Val) (a : Action) : Bool := (Mask.fromPropagate column).allows a

example : propagates (propMask (.str "[\"read\"]")) .read = true ∧
    propagates (propMask (.str "[\"read\"]")) .update = false ∧ propagates (.str "r") .read = false :=
  by decide +kernel

end Mantle
