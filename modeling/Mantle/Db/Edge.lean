import Mantle.Db.Seq

/-!
# Mantle.Db.Edge — the edge half of the store (`db/edge.py`)

An edge lives under the digest of `(src, dst, label)`.  Its merkle contribution is hashed from the caller's props on
the way in and from the row on the way out.
-/

namespace Mantle

/-- The props keys that land in columns of their own. -/
def promoted : List String := ["force", "propagate", "is_origin", "order_key"]

/-- An edge as a caller passes it: a dictionary, or a tuple with optional props. -/
inductive EdgeArg
  | dict (d : Doc)
  | tuple (src dst label : Val) (props : Doc)

def EdgeArg.repr : EdgeArg → String
  | .dict d => (Val.dict d.toItems).repr
  | .tuple s d l p => (Val.tuple [s, d, l, .dict (Doc.toItems p)]).repr

structure EdgeSpec where
  src : String
  dst : String
  label : String
  props : Doc

def unpackFields (e : EdgeArg) (src dst label : Val) (props : Doc) : Except PyErr EdgeSpec :=
  if !src.truthy || !dst.truthy || !label.truthy then
    .error (.valueError ("edge requires non-empty (src, dst, label); got " ++ e.repr))
  else .ok ⟨src.pyStr, dst.pyStr, label.pyStr, props⟩

def unpack (e : EdgeArg) : Except PyErr EdgeSpec :=
  match e with
  | .dict d =>
    unpackFields e (d.get "src") (d.get "dst") (d.get "label")
      (d.without fun k => k ∈ ["src", "dst", "label"])
  | .tuple src dst label props => unpackFields e src dst label props

/-- The key starts with an underscore. -/
def isPrivate (k : String) : Bool := k.toList.head? == some '_'

def blobOf (props : Doc) : Doc := props.without fun k => k ∈ promoted || isPrivate k

/-- `is_origin` as the column holds it. -/
def normIsOrigin (v : Val) : Option ℤ :=
  if v.isNone then none else some (if v.truthy then 1 else 0)

def isOriginVal : Option ℤ → Val
  | none => .none
  | some n => .int n

def edgeContent (force propagate isOrigin orderKey : Val) (blob : Doc) : Doc :=
  Doc.update [("force", force), ("propagate", propagate), ("is_origin", isOrigin),
    ("order_key", orderKey)] blob

/-- `_edge_row_content`: the content of a stored row. -/
def edgeRowContent (row : ERow) : Doc :=
  edgeContent row.force row.propagate (isOriginVal row.isOrigin) row.orderKey row.props.val

/-- The content as `_add_one` hashes it in, straight from the props. -/
def edgePropsContent (props : Doc) : Doc :=
  edgeContent (props.get "force") (props.get "propagate")
    (isOriginVal (normIsOrigin (props.get "is_origin"))) (props.get "order_key") (blobOf props)

/-! ### Adding -/

def edgeRow (e : EdgeSpec) (origin : String) (seq : ℤ) (leaf : ℕ) : Except PyErr ERow := do
  let props ← (blobOf e.props).toCol
  let force ← bindText (e.props.get "force")
  let propagate ← bindText (e.props.get "propagate")
  let orderKey ← bindText (e.props.get "order_key")
  let seq ← bindInt seq
  pure { src := e.src, dst := e.dst, label := e.label, force := force, propagate := propagate,
         isOrigin := normIsOrigin (e.props.get "is_origin"), orderKey := orderKey,
         origin := origin, seq := seq, leaf := leaf, props := props }

/-- On a conflict the endpoints and the label of the stored row stand. -/
def upsertEdge (old : Option ERow) (row : ERow) : ERow :=
  match old with
  | none => row
  | some o => { row with src := o.src, dst := o.dst, label := o.label }

def xorEdge (key : EdgeKey) (leaf : ℕ) (content : Doc) : DbM PUnit := do
  let h ← Tx.ofExcept (edgeHash key content)
  onDb fun db => db.xorLeaf leaf h

def writeEdge (key : EdgeKey) (leaf : ℕ) (e : EdgeSpec) (old : Option ERow) (origin : String)
    (seq : ℤ) : DbM PUnit := do
  let row ← Tx.ofExcept (edgeRow e origin seq leaf)
  onDb fun db => db.putEdge key (upsertEdge old row)
  -- XOR out what the row read back gives, XOR in what the caller passed
  match old with
  | none => pure ⟨⟩
  | some o => xorEdge key leaf (edgeRowContent o)
  xorEdge key leaf (edgePropsContent e.props)
  match old with
  | none => onDb fun db => (db.bump cEdgeTotal 1).bump (cEdgeLabel e.label) 1
  | some o => onDb fun db => db.vacate o.origin
  onDb fun db => db.bump (cRows origin) 1

/-- The version of a consumed row: a non-empty origin and an `int`. -/
def incomingVersion (origin seq : Val) : Option (String × ℤ) :=
  match origin.asStr, seq.asInt with
  | some o, some s => if o = "" then none else some (o, s)
  | _, _ => none

def edgeVersionError (e : EdgeSpec) : PyErr :=
  .valueError ("add_edges(stamp_rev=False) requires (_origin, _seq) on the incoming edge props — that "
    ++ "is what 'preserve the origin's version' means. Got _origin="
    ++ (e.props.get "_origin").repr ++ " _seq=" ++ (e.props.get "_seq").repr ++ " for ("
    ++ reprStr e.src ++ "," ++ reprStr e.dst ++ "," ++ reprStr e.label ++ ").")

/-- `_add_one`; every edge that does not raise is handled. -/
def addOne (leaves : ℕ+) (arg : EdgeArg) (stampRev : Bool) : DbM ℕ := do
  let e ← Tx.ofExcept (unpack arg)
  let key := edgeKey e.src e.dst e.label
  let leaf := leafOf (keyHex key) leaves
  let old ← readDb fun db => db.edge.lookup key
  if stampRev then
    let n ← get
    let seq ← allocate
    writeEdge key leaf e old n.origin seq
    pure 1
  else
    match incomingVersion (e.props.get "_origin") (e.props.get "_seq") with
    | none => throw (edgeVersionError e)
    | some (origin, seq) =>
      observeSeq origin seq
      match old with
      | none =>
        writeEdge key leaf e old origin seq
        pure 1
      | some o =>
        match compareVersion (.str origin) (.int seq) o.origin o.seq with
        | .newer =>
          writeEdge key leaf e old origin seq
          pure 1
        | .unordered =>
          onDb fun db => db.bump cUnorderedEdge 1
          pure 1
        | _ => pure 1

def addEdges (edges : List EdgeArg) (batch : ℕ) (stampRev : Bool) : DbM ℕ := do
  let n ← get
  bulk batch (fun e => addOne n.graphLeaves e stampRev) edges

/-! ### Retiring -/

def retireEdgeRow (leaves : ℕ+) (key : EdgeKey) (label : String) (prev : ERow) : DbM Bool := do
  let row ← readDb fun db => db.edge.lookup key
  match row with
  | none => pure false
  | some _ =>
    onDb fun db => { db with edge := db.edge.erase key }
    xorEdge key (leafOf (keyHex key) leaves) (edgeRowContent prev)
    onDb fun db => (db.bump cEdgeTotal (-1)).bump (cEdgeLabel label) (-1)
    onDb fun db => db.vacate prev.origin
    pure true

/-- The rows with `node` on either side. -/
def edgesTouching (db : Store) (node : String) : List (EdgeKey × ERow) :=
  db.edge.toPairs.filter fun e => e.2.src = node || e.2.dst = node

/-- `_retire_edges_touching`; the keys of a table are distinct, so none is retired twice. -/
def retireEdgesTouching (leaves : ℕ+) (node : String) : DbM ℕ := do
  let rows ← readDb fun db => edgesTouching db node
  rows.foldlM (fun gone r => do
    let b ← retireEdgeRow leaves r.1 r.2.label r.2
    pure (if b then gone + 1 else gone)) 0

def deleteEdge (src dst label : String) : DbM Bool := do
  let n ← get
  let key := edgeKey src dst label
  write do
    let prev ← readDb fun db => db.edge.lookup key
    match prev with
    | none => pure false
    | some r => retireEdgeRow n.graphLeaves key label r

def deleteEdgesTouching (node : String) : DbM ℕ := do
  let n ← get
  write (retireEdgesTouching n.graphLeaves node)

end Mantle
