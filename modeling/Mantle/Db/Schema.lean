import Mantle.Base.Table
import Mantle.Db.Constants

/-!
# Mantle.Db.Schema — the tables of one store file, and the names of its counters

A TEXT column holds NULL, a text or a blob; `bindText` and `bindInt` are what happens to a Python value on its way into
a column.  The tables nothing modelled reads are not here.
-/

namespace Mantle

/-! ### Binding values -/

def intMin : ℤ := -2 ^ 63
def intMax : ℤ := 2 ^ 63 - 1

/-- Bind an integer: SQLite integers are signed 64-bit. -/
def bindInt (n : ℤ) : Except PyErr ℤ :=
  if intMin ≤ n ∧ n ≤ intMax then .ok n else .error .overflowError

def bindText : Val → Except PyErr Val
  | .none => .ok .none
  | .str s => .ok (.str s)
  | .bytes b => .ok (.bytes b)
  | .bool b => .ok (.str (if b then "1" else "0"))
  | .int n => (bindInt n).map fun m => .str (toString m)
  | .float f => .ok (.str f.text)
  | .list _ => .error .interfaceError
  | .tuple _ => .error .interfaceError
  | .dict _ => .error .interfaceError

theorem bindInt_ok {n m : ℤ} (h : bindInt n = .ok m) : m = n := by
  unfold bindInt at h
  split_ifs at h
  cases h
  rfl

/-! ### Rows -/

structure VRow where
  ct : Val
  offer : Val
  contentRef : Val
  createdBy : Val
  createdTime : Val
  originRoot : Val
  rootId : Val
  origin : String
  seq : ℤ
  leaf : ℕ
  doc : JsonCol

structure ERow where
  src : String
  dst : String
  label : String
  force : Val
  propagate : Val
  isOrigin : Option ℤ
  orderKey : Val
  origin : String
  seq : ℤ
  leaf : ℕ
  props : JsonCol

structure SeqRow where
  lastSeq : ℤ
  isLocal : Bool
deriving DecidableEq, Repr

structure TaskRow where
  ct : String
  status : String
  priority : ℤ
  operator : Val
  taskKey : Val
  claimedBy : Val
  claimedAt : Val
  nextRetryAt : Val
  completedAt : Val

/-- One store file.  `written` is a history variable: the versions rows were written under, newest first. -/
structure Store where
  vertex : Table String VRow
  edge : Table EdgeKey ERow
  seqCounter : Table String SeqRow
  counter : Table String ℤ
  leafDigest : Table ℕ ℕ
  task : Table String TaskRow
  written : List (String × ℤ)

/-! ### Counter names -/

def cVertexTotal : String := "vertex"
def cEdgeTotal : String := "edge"
def cEdgeLabel (label : String) : String := "edge:label:" ++ label
def cEdgeLabelBuilt : String := "edgelabel:built"
def cCt (ct : String) : String := "ct:" ++ ct
def cCollection (collectionId : String) (committedOnly : Bool) : String :=
  "col:" ++ collectionId ++ (if committedOnly then ":committed" else "")
def cTaskStatus (ct status : String) : String := "task:" ++ ct ++ ":" ++ status
def cRows (origin : String) : String := "rows:" ++ origin
def cVacated (origin : String) : String := "vacated:" ++ origin
def cListIndexBuilt : String := "listkey:built"
def cMissing (field : String) (committedOnly : Bool) : String :=
  "missing:" ++ field ++ (if committedOnly then ":committed" else "")
def cState (state : String) : String := "state:" ++ state
def cUnordered : String := "conflict:unordered"
def cUnorderedEdge : String := "conflict:unordered_edge"

/-- A freshly created store: its indexes are trivially complete. -/
def Store.empty : Store where
  vertex := ∅
  edge := ∅
  seqCounter := ∅
  counter := ((∅ : Table String ℤ).insert cListIndexBuilt 1).insert cEdgeLabelBuilt 1
  leafDigest := ∅
  task := ∅
  written := []

/-! ### The accounting counters stand apart

A counter of the proper-time accounting starts with `ro` or `va`, and no other counter does. -/

/-- The name is no `rows:` or `vacated:` counter. -/
def OffLedger (name : String) : Prop := ∀ o, name ≠ cRows o ∧ name ≠ cVacated o

theorem offLedger_of_toList {name : String}
    (hr : ∀ cs, name.toList ≠ 'r' :: 'o' :: cs) (hv : ∀ cs, name.toList ≠ 'v' :: 'a' :: cs) :
    OffLedger name := by
  intro o
  constructor
  · rintro rfl
    exact hr ('w' :: 's' :: ':' :: o.toList) (by simp [cRows])
  · rintro rfl
    exact hv ('c' :: 'a' :: 't' :: 'e' :: 'd' :: ':' :: o.toList) (by simp [cVacated])

theorem offLedger_vertexTotal : OffLedger cVertexTotal :=
  offLedger_of_toList (by simp [cVertexTotal]) (by simp [cVertexTotal])

theorem offLedger_edgeTotal : OffLedger cEdgeTotal :=
  offLedger_of_toList (by simp [cEdgeTotal]) (by simp [cEdgeTotal])

theorem offLedger_edgeLabel (l : String) : OffLedger (cEdgeLabel l) :=
  offLedger_of_toList (by simp [cEdgeLabel]) (by simp [cEdgeLabel])

theorem offLedger_ct (c : String) : OffLedger (cCt c) :=
  offLedger_of_toList (by simp [cCt]) (by simp [cCt])

theorem offLedger_collection (c : String) (b : Bool) : OffLedger (cCollection c b) :=
  offLedger_of_toList (by simp [cCollection]) (by simp [cCollection])

theorem offLedger_taskStatus (c s : String) : OffLedger (cTaskStatus c s) :=
  offLedger_of_toList (by simp [cTaskStatus]) (by simp [cTaskStatus])

theorem offLedger_missing (f : String) (b : Bool) : OffLedger (cMissing f b) :=
  offLedger_of_toList (by simp [cMissing]) (by simp [cMissing])

theorem offLedger_state (s : String) : OffLedger (cState s) :=
  offLedger_of_toList (by simp [cState]) (by simp [cState])

theorem offLedger_unordered : OffLedger cUnordered :=
  offLedger_of_toList (by simp [cUnordered]) (by simp [cUnordered])

theorem offLedger_listIndexBuilt : OffLedger cListIndexBuilt :=
  offLedger_of_toList (by simp [cListIndexBuilt]) (by simp [cListIndexBuilt])

theorem offLedger_edgeLabelBuilt : OffLedger cEdgeLabelBuilt :=
  offLedger_of_toList (by simp [cEdgeLabelBuilt]) (by simp [cEdgeLabelBuilt])

theorem offLedger_unorderedEdge : OffLedger cUnorderedEdge :=
  offLedger_of_toList (by simp [cUnorderedEdge]) (by simp [cUnorderedEdge])

theorem cRows_injective {o o' : String} (h : cRows o = cRows o') : o = o' := by
  have := congrArg String.toList h
  simpa [cRows, String.toList_inj] using this

theorem cVacated_injective {o o' : String} (h : cVacated o = cVacated o') : o = o' := by
  have := congrArg String.toList h
  simpa [cVacated, String.toList_inj] using this

theorem cRows_ne_cVacated (o o' : String) : cRows o ≠ cVacated o' := by
  intro h
  have := congrArg String.toList h
  simp [cRows, cVacated] at this

end Mantle
