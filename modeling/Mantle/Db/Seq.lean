import Mantle.Base.Tx
import Mantle.Db.Schema

/-!
# Mantle.Db.Seq — proper time, counters and merkle leaves (`db/seq.py`)

`Node` is one process over one store file.  `write` is `LatticeConn.write()`; `savepoint` is the per-item savepoint of
the bulk paths, which leaves the allocator's dirty flag as it is.
-/

namespace Mantle

/-- The identity of the authoring observer: never empty. -/
abbrev Origin := { s : String // s ≠ "" }

def Origin.here : Origin := ⟨"here", by decide⟩

structure Node where
  origin : Origin
  db : Store
  /-- `SeqAllocator._local.cache` -/
  cache : Option ℤ
  /-- `SeqAllocator._local.dirty` -/
  dirty : Bool
  /-- A write transaction is open. -/
  inTxn : Bool
  /-- `LatticeArtifactStore.leaves` -/
  leaves : ℕ+
  /-- `LatticeGraphStore.leaves` -/
  graphLeaves : ℕ+
  /-- The leaf count of `_graph_face`, once it is built. -/
  face : Option ℕ+
  /-- `LatticeArtifactStore.unplaced` -/
  unplaced : ℕ

abbrev DbM := EStateM PyErr Node

/-! ### Pure updates of the store -/

namespace Store

/-- `counter_of`: a missing counter is zero. -/
def counterOf (db : Store) (name : String) : ℤ := (db.counter.lookup name).getD 0

/-- Adjust a counter; a zero delta does nothing. -/
def bump (db : Store) (name : String) (delta : ℤ) : Store :=
  { db with
    counter := if delta = 0 then db.counter
      else db.counter.insert name (db.counterOf name + delta) }

/-- One sequence number of `origin` is vacated. -/
def vacate (db : Store) (origin : String) : Store :=
  { db with
    counter := if origin = "" then db.counter
      else ((db.bump (cRows origin) (-1)).bump (cVacated origin) 1).counter }

def highWater (db : Store) (origin : String) : ℤ :=
  match db.seqCounter.lookup origin with
  | some r => r.lastSeq
  | none => 0

def isLocal (db : Store) (origin : String) : Bool :=
  match db.seqCounter.lookup origin with
  | some r => r.isLocal
  | none => false

/-- Record an observed sequence number as a high-water mark. -/
def observe (db : Store) (origin : String) (seq : ℤ) : Store :=
  let row := match db.seqCounter.lookup origin with
    | some r => { r with lastSeq := max r.lastSeq seq }
    | none => ⟨seq, false⟩
  { db with seqCounter := db.seqCounter.insert origin row }

def persist (db : Store) (origin : String) (cache : ℤ) : Store :=
  let row := match db.seqCounter.lookup origin with
    | some r => ⟨max r.lastSeq cache, true⟩
    | none => ⟨cache, true⟩
  { db with seqCounter := db.seqCounter.insert origin row }

def digestOf (db : Store) (leaf : ℕ) : ℕ := (db.leafDigest.lookup leaf).getD 0

def xorLeaf (db : Store) (leaf value : ℕ) : Store :=
  { db with
    leafDigest := if value = 0 then db.leafDigest
      else db.leafDigest.insert leaf (db.digestOf leaf ^^^ (value &&& (2 ^ 64 - 1))) }

def putVertex (db : Store) (id : String) (row : VRow) : Store :=
  { db with vertex := db.vertex.insert id row, written := (row.origin, row.seq) :: db.written }

def putEdge (db : Store) (key : EdgeKey) (row : ERow) : Store :=
  { db with edge := db.edge.insert key row, written := (row.origin, row.seq) :: db.written }

/-- The highest sequence number a table holds for an origin, zero when it holds none. -/
def maxSeq (rows : List (String × ℤ)) (origin : String) : ℤ :=
  (rows.filter fun e => e.1 = origin).foldl (fun best e => max best e.2) 0

/-- `_recover`: the counter of an origin that has rows but no counter row. -/
def recover (db : Store) (origin : String) : ℤ :=
  max (maxSeq (db.vertex.toPairs.map fun e => (e.2.origin, e.2.seq)) origin)
    (maxSeq (db.edge.toPairs.map fun e => (e.2.origin, e.2.seq)) origin)

/-- `_load`: the durable counter of the allocator. -/
def load (db : Store) (origin : String) : ℤ :=
  match db.seqCounter.lookup origin with
  | some r => r.lastSeq
  | none => db.recover origin

/-! How the updates read back. -/

theorem counterOf_congr {db db' : Store} (h : db'.counter = db.counter) (name : String) :
    db'.counterOf name = db.counterOf name := by
  unfold counterOf
  rw [h]

@[simp] theorem counterOf_xorLeaf (db : Store) (leaf value : ℕ) (name : String) :
    (db.xorLeaf leaf value).counterOf name = db.counterOf name := rfl

@[simp] theorem counterOf_putVertex (db : Store) (id : String) (row : VRow) (name : String) :
    (db.putVertex id row).counterOf name = db.counterOf name := rfl

@[simp] theorem counterOf_putEdge (db : Store) (key : EdgeKey) (row : ERow) (name : String) :
    (db.putEdge key row).counterOf name = db.counterOf name := rfl

theorem counterOf_bump (db : Store) (name : String) (delta : ℤ) (x : String) :
    (db.bump name delta).counterOf x = db.counterOf x + if x = name then delta else 0 := by
  unfold bump
  by_cases hd : delta = 0
  · simp [hd, counterOf]
  · by_cases hx : x = name
    · subst hx
      simp [counterOf, hd]
    · simp [counterOf, hd, hx]

theorem digestOf_congr {db db' : Store} (h : db'.leafDigest = db.leafDigest) (leaf : ℕ) :
    db'.digestOf leaf = db.digestOf leaf := by
  unfold digestOf
  rw [h]

theorem digestOf_xorLeaf (db : Store) (leaf value : ℕ) (hv : value < 2 ^ 64) (l : ℕ) :
    (db.xorLeaf leaf value).digestOf l = db.digestOf l ^^^ if l = leaf then value else 0 := by
  have hmask : value &&& (2 ^ 64 - 1) = value := by
    rw [Nat.and_two_pow_sub_one_eq_mod, Nat.mod_eq_of_lt hv]
  unfold xorLeaf
  by_cases h0 : value = 0
  · simp [h0, digestOf]
  · by_cases hl : l = leaf
    · subst hl
      simp only [digestOf, h0, if_false, AList.lookup_insert, if_true, Option.getD_some, hmask]
    · simp [digestOf, h0, hl]

end Store

/-! ### The accounting report -/

structure Accounting where
  lastSeq : ℤ
  liveRows : ℤ
  vacated : ℤ
  accounted : ℤ
  unaccounted : ℤ
  balanced : Bool
  insertOnly : Bool
  localOnly : Bool
deriving DecidableEq, Repr

/-- `seq_accounting(origin)` in its default mode, which reads the incremental counters. -/
def seqAccounting (db : Store) (origin : String) : Accounting :=
  let hw := db.highWater origin
  let vac := db.counterOf (cVacated origin)
  let live := db.counterOf (cRows origin)
  let accounted := live + vac
  let unaccounted := hw - accounted
  let loc := db.isLocal origin
  { lastSeq := hw
    liveRows := live
    vacated := vac
    accounted := accounted
    unaccounted := unaccounted
    balanced := if loc then decide (unaccounted = 0) else decide (0 ≤ unaccounted)
    insertOnly := decide (vac = 0)
    localOnly := loc }

/-! ### Statements inside a transaction -/

/-- Run a pure update of the store. -/
def onDb (f : Store → Store) : DbM PUnit := modify fun n => { n with db := f n.db }

def readDb {α : Type} (f : Store → α) : DbM α := do
  let n ← get
  pure (f n.db)

theorem runs_read {α β : Type} {f : Store → α} {g : α → DbM β} {n : Node} {Q : β → Node → Prop} {E : Node → Prop}
    (h : Tx.Runs (g (f n.db)) n Q E) : Tx.Runs (readDb f >>= g) n Q E :=
  Tx.runs_bind (Tx.runs_bind (Tx.runs_get (Tx.runs_pure h)))

def observeSeq (origin : String) (seq : ℤ) : DbM PUnit := do
  let s ← Tx.ofExcept (bindInt seq)
  onDb fun db => db.observe origin s

/-- The next `_seq` of the local origin. -/
def allocate : DbM ℤ := do
  let n ← get
  let c := n.cache.getD (n.db.load n.origin)
  modify fun n => { n with cache := some (c + 1), dirty := true }
  pure (c + 1)

/-- Persist the cached counter at commit.  A dirty allocator with no cache raises. -/
def flush : DbM PUnit := do
  let n ← get
  if n.dirty then
    match n.cache with
    | none => throw (.typeError "int() argument must be a string, not 'NoneType'")
    | some c =>
      let c ← Tx.ofExcept (bindInt c)
      modify fun n => { n with db := n.db.persist n.origin c, dirty := false }
  else pure ⟨⟩

def write {α : Type} (body : DbM α) : DbM α := fun n =>
  if n.inTxn then body n
  else
    match (do let a ← body; flush; pure a : DbM α)
        { n with cache := none, dirty := false, inTxn := true } with
    | .ok a n' => .ok a { n' with cache := none, dirty := false, inTxn := false }
    | .error e n' =>
      .error e { n' with db := n.db, cache := none, dirty := false, inTxn := false }

/-- What `ROLLBACK TO` and `seq.restore(snapshot)` put back. -/
def rollbackTo (n n' : Node) : Node := { n' with db := n.db, cache := n.cache }

/-- One item of a bulk write under its own savepoint; a failed item counts as not handled. -/
def savepoint (body : DbM ℕ) : DbM ℕ := do
  let r ← Tx.attempt rollbackTo body
  pure (r.getD 0)

/-- Split as the bulk paths do: a chunk closes when it holds `max 1 batch` items. -/
def chunked {α : Type} (batch : ℕ) : List α → List α → List (List α)
  | acc, [] => if acc.isEmpty then [] else [acc]
  | acc, x :: xs =>
    let acc' := acc ++ [x]
    if acc'.length ≥ max 1 batch then acc' :: chunked batch [] xs else chunked batch acc' xs

/-- Handle every chunk in its own transaction, every item under its own savepoint. -/
def bulk {α : Type} (batch : ℕ) (one : α → DbM ℕ) (xs : List α) : DbM ℕ :=
  (chunked batch [] xs).foldlM (fun handled chunk => do
    let k ← write (chunk.foldlM (fun k x => do
      let j ← savepoint (one x)
      pure (k + j)) 0)
    pure (handled + k)) 0

end Mantle
