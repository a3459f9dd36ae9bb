import Mantle.Db.Edge

/-!
# Mantle.Db.Vertex — the artifact half of the store (`db/vertex.py`)

`writeRow` is the single write path: the row, its merkle contribution, its accounting, its counters, its task row and
its containment edge.
-/

namespace Mantle

/-! ### Columns -/

/-- Two column values compare equal. -/
def Val.eqCol : Val → Val → Bool
  | .none, .none => true
  | .str a, .str b => a == b
  | .bytes a, .bytes b => a == b
  | _, _ => false

/-- `_origin_root`: an explicit root, else the collection, else the vertex itself. -/
def originRoot (doc : Doc) : Val :=
  if (doc.get "origin_root").truthy then .str (doc.get "origin_root").pyStr
  else if (doc.get "collection_id").truthy then .str (doc.get "collection_id").pyStr
  else if (doc.get "id").truthy then .str (doc.get "id").pyStr
  else .none

/-- The row of a document, by `_columns` and the column rules of the table. -/
def vertexRow (d : Doc) (origin : String) (seq : ℤ) (leaf : ℕ) : Except PyErr VRow := do
  let ct ← bindText (d.get "content_type")
  let contentRef ← bindText (d.get "content_ref")
  let createdBy ← bindText (d.get "created_by")
  let rootId ← bindText ((d.get "root_id").orElse (d.get "id"))
  let seq ← bindInt seq
  let doc ← d.toCol
  let offer := match d.get "offer" with
    | .str s => Val.str s
    | _ => Val.none
  let time := d.get "created_time"
  pure { ct := ct, offer := offer, contentRef := contentRef, createdBy := createdBy,
         createdTime := if time.isNone then .none else .str time.pyStr,
         originRoot := originRoot d, rootId := rootId, origin := origin, seq := seq, leaf := leaf,
         doc := doc }

/-- On a conflict the stored `root_id` stands. -/
def upsertVertex (prev : Option VRow) (row : VRow) : VRow :=
  match prev with
  | none => row
  | some p => { row with rootId := p.rootId }

def timeClaimKey : String := "created_time_origin"

/-- `_attribute_time`: a clock reading names its claimant. -/
def attributeTime (d : Doc) (origin : String) : Doc :=
  if (d.get "created_time").isNone then d
  else if (d.get timeClaimKey).truthy then d
  else d.set timeClaimKey (.str origin)

/-- `created_time` is first-write-wins, with its claimant. -/
def keepTime (d : Doc) (prev : Option VRow) : Doc :=
  match prev with
  | none => d
  | some p =>
    if (p.doc.val.get "created_time").isNone then d
    else
      let d := d.set "created_time" (p.doc.val.get "created_time")
      if (p.doc.val.get timeClaimKey).isNone then d
      else d.set timeClaimKey (p.doc.val.get timeClaimKey)

/-- The document as `_write_row` stores it. -/
def stampedDoc (doc : Doc) (origin : String) (seq : Val) (prev : Option VRow) : Doc :=
  keepTime (attributeTime ((doc.set "_origin" (.str origin)).set "_seq" seq) origin) prev

/-! ### Counters -/

def countedNames (doc : Doc) (ct : Val) : List String :=
  let state := doc.get "state"
  let live := state.eqStr stateLive || state.eqStr "committed"
  let col := doc.get "collection_id"
  (if ct.truthy then [cCt ct.pyStr] else []) ++
  (if state.truthy then [cState state.pyStr] else []) ++
  (if col.truthy then
    cCollection col.pyStr false :: (if live then [cCollection col.pyStr true] else []) else []) ++
  nullAuditFields.flatMap fun f =>
    if isMissing (doc.get f) then
      cMissing f false :: (if live then [cMissing f true] else []) else []

/-- `d[name] = d.get(name, 0) + delta`. -/
def addDelta : List (String × ℤ) → String → ℤ → List (String × ℤ)
  | [], name, delta => [(name, delta)]
  | (k, v) :: rest, name, delta =>
    if k = name then (k, v + delta) :: rest else (k, v) :: addDelta rest name delta

/-- `_counter_deltas`: what the counters owe for replacing `old` by `new`. -/
def counterDeltas (old new : Option Doc) (oldCt newCt : Val) : List (String × ℤ) :=
  let outs := match old with
    | none => []
    | some d => countedNames d oldCt
  let ins := match new with
    | none => []
    | some d => countedNames d newCt
  let d := outs.foldl (fun acc name => addDelta acc name (-1)) []
  (ins.foldl (fun acc name => addDelta acc name 1) d).filter fun e => e.2 ≠ 0

def bumpAll (deltas : List (String × ℤ)) : DbM PUnit :=
  onDb fun db => deltas.foldl (fun db e => db.bump e.1 e.2) db

def countNew (old : Option Doc) : DbM PUnit :=
  if old.isNone then onDb fun db => db.bump cVertexTotal 1 else pure ⟨⟩

def recount (old : Option Doc) (new : Doc) (oldCt newCt : Val) : DbM PUnit := do
  countNew old
  bumpAll (counterDeltas old (some new) oldCt newCt)

/-! ### The task sidecar -/

/-- The digits of a decimal literal, single underscores between them allowed. -/
def parseDigits : List Char → Bool → ℕ → Option ℕ
  | [], afterDigit, acc => if afterDigit then some acc else none
  | c :: cs, afterDigit, acc =>
    if c.isDigit then parseDigits cs true (acc * 10 + (c.toNat - '0'.toNat))
    else if c = '_' ∧ afterDigit then parseDigits cs false acc
    else none

/-- `int(s)` for a text. -/
def parseInt (s : String) : Option ℤ :=
  match (s.toList.dropWhile Char.isWhitespace).reverse.dropWhile Char.isWhitespace |>.reverse with
  | '-' :: cs => (parseDigits cs false 0).map fun n => -(n : ℤ)
  | '+' :: cs => (parseDigits cs false 0).map fun n => (n : ℤ)
  | cs => (parseDigits cs false 0).map fun n => (n : ℤ)

def pyInt : Val → Except PyErr ℤ
  | .int n => .ok n
  | .bool b => .ok (if b then 1 else 0)
  | .float f =>
    match f.trunc with
    | some n => .ok n
    | none => .error (.valueError "cannot convert float to integer")
  | .str s =>
    match parseInt s with
    | some n => .ok n
    | none => .error (.valueError ("invalid literal for int() with base 10: " ++ reprStr s))
  | .bytes b =>
    match parseInt (String.ofList (b.map Char.ofNat)) with
    | some n => .ok n
    | none => .error (.valueError "invalid literal for int() with base 10")
  | _ => .error (.typeError "int() argument must be a string, a bytes-like object or a real number")

def fieldText (doc : Option Doc) (field : String) : Option String :=
  match doc with
  | none => none
  | some d => if (d.get field).truthy then some (d.get field).pyStr else none

def taskRow (d : Doc) (ct status : String) : Except PyErr TaskRow := do
  let priority ← pyInt ((d.get "priority").orElse (.int 0))
  let priority ← bindInt priority
  let operator ← bindText (d.get "operator")
  let taskKey ← bindText (d.get "task_key")
  let claimedBy ← bindText (d.get "claimed_by")
  let claimedAt ← bindText (d.get "claimed_at")
  let nextRetryAt ← bindText (d.get "next_retry_at")
  let completedAt ← bindText (d.get "completed_at")
  pure ⟨ct, status, priority, operator, taskKey, claimedBy, claimedAt, nextRetryAt, completedAt⟩

/-- The old document's task leaves its status counter. -/
def uncountTask (old : Option Doc) : DbM PUnit :=
  match fieldText old "status", fieldText old "content_type" with
  | some status, some oldCt => onDb fun db => db.bump (cTaskStatus oldCt status) (-1)
  | _, _ => pure ⟨⟩

/-- The new document's task row and status counter; a document with no status or type has none. -/
def storeTask (aid : String) (new : Option Doc) (ct : Val) : DbM PUnit :=
  match new, fieldText new "status" with
  | some d, some status =>
    if ct.truthy then do
      onDb fun db => db.bump (cTaskStatus ct.pyStr status) 1
      let row ← Tx.ofExcept (taskRow d ct.pyStr status)
      onDb fun db => { db with task := db.task.insert aid row }
    else onDb fun db => { db with task := db.task.erase aid }
  | _, _ => onDb fun db => { db with task := db.task.erase aid }

def syncTask (aid : String) (old new : Option Doc) (ct : Val) : DbM PUnit := do
  uncountTask old
  storeTask aid new ct

/-! ### Placement -/

/-- The container and the member a document's placement names: the member is the root. -/
def placement (doc : Doc) : Option (String × String) :=
  let cid := doc.get "collection_id"
  let aid := (doc.get "root_id").orElse (doc.get "id")
  if !cid.truthy || !aid.truthy || cid.pyStr == aid.pyStr then none
  else some (cid.pyStr, aid.pyStr)

/-- The props `_place` writes its edge with. -/
def placeProps (aid : String) : Doc := [("root_id", .str aid), ("is_origin", .int 1)]

/-- `_place`: the origin containment edge of the document's collection, when the collection is a
vertex of this store. -/
def place (doc : Doc) : DbM PUnit := do
  match placement doc with
  | none => pure ⟨⟩
  | some (cid, aid) =>
    let n ← get
    match n.db.vertex.lookup cid with
    | none => modify fun n => { n with unplaced := n.unplaced + 1 }
    | some _ =>
      -- the graph face is built once, with the leaf count of that moment
      let leaves := n.face.getD n.leaves
      modify fun n => { n with face := some leaves }
      let _ ← addOne leaves (.tuple (.str cid) (.str aid) (.str "contains") (placeProps aid)) true
      pure ⟨⟩

/-! ### The single write path -/

/-- The row, its merkle contribution and its accounting. -/
def writeVertex (aid : String) (leaf : ℕ) (d : Doc) (prev : Option VRow) (origin : String)
    (seq : Val) : DbM PUnit := do
  let s ← Tx.ofExcept (match seq.asInt with
    | some s => .ok s
    | none => .error .interfaceError)
  let row ← Tx.ofExcept (vertexRow d origin s leaf)
  onDb fun db => db.putVertex aid (upsertVertex prev row)
  match prev with
  | none => pure ⟨⟩
  | some p => onDb fun db => db.xorLeaf leaf (rowHash aid (.int p.seq))
  onDb fun db => db.xorLeaf leaf (rowHash aid seq)
  match prev with
  | none => pure ⟨⟩
  | some p => onDb fun db => db.vacate p.origin
  onDb fun db => db.bump (cRows origin) 1

def docId (doc : Doc) : Except PyErr String :=
  match doc.get "id" with
  | .str s => .ok s
  | _ => .error (.attributeError "object has no attribute 'encode'")

/-- What follows the row in `_write_row`: the counters, the task row, the placement. -/
def followRow (aid : String) (prev : Option VRow) (d : Doc) : DbM Doc := do
  let oldDoc := prev.map fun p => p.doc.val
  let oldCt := match prev with
    | none => .none
    | some p => p.ct
  recount oldDoc d oldCt (d.get "content_type")
  syncTask aid oldDoc (some d) (d.get "content_type")
  place d
  pure d

def writeRow (doc : Doc) (origin : String) (seq : Val) : DbM Doc := do
  let aid ← Tx.ofExcept (docId doc)
  let n ← get
  let prev := n.db.vertex.lookup aid
  let d := stampedDoc doc origin seq prev
  writeVertex aid (leafOf aid n.leaves) d prev origin seq
  followRow aid prev d

def versionError (doc : Doc) : PyErr :=
  .valueError ("put(stamp_rev=False) requires the incoming doc to carry (_origin, _seq) — that is what "
    ++ "'preserve the origin's version' means. Got _origin=" ++ (doc.get "_origin").repr
    ++ " _seq=" ++ (doc.get "_seq").repr ++ " for id=" ++ (doc.get "id").repr
    ++ ". Re-stamping locally would claim this node authored a peer's event.")

def versionFor (doc : Doc) (stampRev : Bool) : DbM (String × Val) := do
  if stampRev then
    let n ← get
    let seq ← allocate
    pure (n.origin, .int seq)
  else
    match incomingVersion (doc.get "_origin") (doc.get "_seq") with
    | none => throw (versionError doc)
    | some (origin, _) => pure (origin, doc.get "_seq")

def observeIncoming (origin : String) (seq : Val) : DbM PUnit :=
  match seq.asInt with
  | none => pure ⟨⟩
  | some s => observeSeq origin s

def observeConsumed (stampRev : Bool) (v : String × Val) : DbM PUnit :=
  if stampRev then pure ⟨⟩ else observeIncoming v.1 v.2

/-! ### Putting -/

def snapshotId (aid : String) (prev : VRow) : String :=
  aid ++ "@" ++ hexOfBytes (Blake2b.hash 8 (utf8 prev.doc.text))

/-- `_snapshot_prior`: keep the prior row under a derived, archived id. -/
def snapshotPrior (aid : String) (prev : VRow) : DbM (Option String) := do
  let pdoc := prev.doc.val
  if pdoc.isEmpty then pure none
  else
    let root := prev.rootId.orElse (.str aid)
    let snapId := snapshotId aid prev
    if snapId = aid then pure none
    else
      let there ← readDb fun db => (db.vertex.lookup snapId).isSome
      if there then pure (some snapId)
      else
        let snap := ((pdoc.set "id" (.str snapId)).set "root_id" root).set "state"
          (.str stateArchived)
        let v ← versionFor snap true
        let _ ← writeRow snap v.1 v.2
        pure (some snapId)

/-- The document `put_artifact` writes: when the content changed, it names its snapshot. -/
def withSnapshot (doc : Doc) (stampRev newVersion : Bool) : DbM Doc := do
  if stampRev && ((doc.get "content_ref").truthy || newVersion) then
    let aid ← Tx.ofExcept (docId doc)
    let prev ← readDb fun db => db.vertex.lookup aid
    match prev with
    | none => pure doc
    | some p =>
      if newVersion || (p.contentRef.truthy && !p.contentRef.eqCol (doc.get "content_ref")) then
        let snap ← snapshotPrior aid p
        match snap with
        | some s => pure (doc.set "parent_id" (.str s))
        | none => pure (doc.set "parent_id" (doc.get "parent_id"))
      else pure doc
  else pure doc

def putArtifact (doc : Doc) (stampRev newVersion : Bool) : DbM Doc :=
  if !(doc.get "id").truthy then throw (.valueError "put_artifact: doc has no 'id'")
  else write do
    let doc ← withSnapshot doc stampRev newVersion
    let v ← versionFor doc stampRev
    observeConsumed stampRev v
    writeRow doc v.1 v.2

/-- `update_artifact`: a version is kept when the content changed.  `contentChanged` compares in plaintext. -/
def updateArtifact (contentChanged : Option Doc → Doc → Bool) (doc : Doc) : DbM Doc := do
  let prior ← readDb fun db =>
    (doc.get "id").asStr.bind fun id => (db.vertex.lookup id).map fun r => r.doc.val
  putArtifact doc true (contentChanged prior doc)

inductive OnUnordered
  | keepLocal
  | takeRemote
  | error
deriving DecidableEq, Repr

/-- The row a `WHERE id = ?` finds: the id is compared as TEXT. -/
def rowById (id : Val) : DbM (Option VRow) := do
  let c ← Tx.ofExcept (bindText id)
  match c with
  | .str s => readDb fun db => db.vertex.lookup s
  | _ => pure none

/-- `_lww`: how an incoming version stands against the local row. -/
def lww (id : Val) (origin : String) (seq : Val) : DbM VersionOrder := do
  let row ← rowById id
  match row with
  | none => pure .newer
  | some r => pure (compareVersion (.str origin) seq r.origin r.seq)

def unorderedError (doc : Doc) (origin : String) : PyErr :=
  .valueError ("unordered concurrent authorship of vertex " ++ (doc.get "id").repr ++ ": incoming _origin="
    ++ reprStr origin ++ " vs local row from a different origin. There is no clock and no tiebreak.")

def putWritten (doc : Doc) (v : String × Val) : DbM ℕ := do
  let _ ← writeRow doc v.1 v.2
  pure 1

/-- A consumed document is written, declined or refused by its version. -/
def putDecided (onUnordered : OnUnordered) (doc : Doc) (v : String × Val) (verdict : VersionOrder) :
    DbM ℕ :=
  match verdict, onUnordered with
  | .newer, _ => putWritten doc v
  | .unordered, .keepLocal => do
    onDb fun db => db.bump cUnordered 1
    pure 1
  | .unordered, .error => throw (unorderedError doc v.1)
  | .unordered, .takeRemote => putWritten doc v
  | _, _ => pure 1

def putOne (stampRev : Bool) (onUnordered : OnUnordered) (doc : Doc) : DbM ℕ :=
  if !(doc.get "id").truthy then throw (.valueError "put_many: doc has no 'id'")
  else do
    let v ← versionFor doc stampRev
    if stampRev then putWritten doc v
    else
      observeIncoming v.1 v.2
      let verdict ← lww (doc.get "id") v.1 v.2
      putDecided onUnordered doc v verdict

def putMany (docs : List Doc) (batch : ℕ) (stampRev : Bool) (onUnordered : OnUnordered) : DbM ℕ :=
  bulk batch (putOne stampRev onUnordered) docs

/-! ### Deleting -/

/-- The edges go with an accounted vertex, in its transaction; an evicted copy leaves them. -/
def dropEdges (leaves : ℕ+) (aid : String) (accounted : Bool) : DbM PUnit :=
  if accounted then do
    let _ ← write (retireEdgesTouching leaves aid)
    pure ⟨⟩
  else pure ⟨⟩

/-- The merkle contribution, the total and, when accounted, the proper time of a deleted row. -/
def settleRow (aid : String) (r : VRow) (accounted : Bool) : DbM PUnit := do
  onDb fun db => db.xorLeaf r.leaf (rowHash aid (.int r.seq))
  onDb fun db => db.bump cVertexTotal (-1)
  if accounted then onDb fun db => db.vacate r.origin else pure ⟨⟩

/-- `delete_artifact`; `accounted = false` is the eviction of a cached copy. -/
def deleteArtifact (aid : String) (accounted : Bool) : DbM PUnit := do
  let n ← get
  write do
    let r ← readDb fun db => db.vertex.lookup aid
    match r with
    | none => pure ⟨⟩
    | some r =>
      onDb fun db => { db with vertex := db.vertex.erase aid }
      dropEdges n.leaves aid accounted
      settleRow aid r accounted
      bumpAll (counterDeltas (some r.doc.val) none r.ct .none)
      syncTask aid (some r.doc.val) none r.ct

def evictArtifact (aid : String) : DbM PUnit := deleteArtifact aid false

/-! ### The state-collapse migration -/

def inChunk : ℕ := 900

def relabelIds (db : Store) (old cursor : String) (exclude : Option String) (take : ℕ) :
    List String :=
  let rows := db.vertex.toPairs.filter fun e =>
    cursor < e.1 && (e.2.doc.val.get "state").eqStr old && some e.2.origin != exclude
  ((rows.map fun e => e.1).mergeSort (· ≤ ·)).take take

/-- SQLite's `json_set(doc, '$.' || k, v)`. -/
def jsonSet (c : JsonCol) (k : String) (v : Val) : JsonCol :=
  let d := c.val.set k v
  match d.dumps .minified with
  | .ok t => ⟨t, d⟩
  | .error _ => ⟨c.text, d⟩

theorem jsonSet_val (c : JsonCol) (k : String) (v : Val) : (jsonSet c k v).val = c.val.set k v := by
  unfold jsonSet
  dsimp only
  split <;> rfl

def setDoc (aid : String) (r : VRow) (doc : JsonCol) : DbM PUnit :=
  onDb fun db => { db with vertex := db.vertex.insert aid { r with doc := doc } }

/-- One row of a `committed` relabel; the state counters are moved by the caller. -/
def relabelCommitted (new aid : String) (old : String) : DbM ℕ := do
  let r ← readDb fun db => db.vertex.lookup aid
  match r with
  | none => pure 0
  | some r =>
    if (r.doc.val.get "state").eqStr old then
      setDoc aid r (jsonSet r.doc "state" (.str new))
      pure 1
    else pure 0

/-- One row of a `draft` relabel, with its counters. -/
def relabelDraft (new aid : String) (old : String) : DbM ℕ := do
  let r ← readDb fun db => db.vertex.lookup aid
  match r with
  | none => pure 0
  | some r =>
    if (r.doc.val.get "state").eqStr old then
      let doc := r.doc.val.set "state" (.str new)
      let col ← Tx.ofExcept doc.toCol
      setDoc aid r col
      bumpAll (counterDeltas (some r.doc.val) (some doc) r.ct r.ct)
      pure 1
    else pure 0

/-- One `IN (…)` chunk of a relabel transaction. -/
def relabelChunk (old new : String) (chunk : List String) : DbM ℕ := do
  if old = "committed" ∧ new = stateLive then
    let k ← chunk.foldlM (fun k aid => do
      let j ← relabelCommitted new aid old
      pure (k + j)) 0
    onDb fun db => (db.bump (cState old) (-(k : ℤ))).bump (cState new) k
    pure k
  else
    chunk.foldlM (fun k aid => do
      let j ← relabelDraft new aid old
      pure (k + j)) 0

/-- Every batch moves the cursor past at least one row, so a fuel of one more than the number of rows never runs out. -/
def relabelLoop (old new : String) (batch : ℕ) (limit : Option ℕ) (exclude : Option String) :
    ℕ → ℕ → ℕ → String → DbM (ℕ × ℕ)
  | 0, done, batches, _ => pure (done, batches)
  | fuel + 1, done, batches, cursor => do
    let take := match limit with
      | none => batch
      | some l => min batch (l - done)
    if limit.elim false (fun l => l ≤ done) then pure (done, batches)
    else
      let ids ← readDb fun db => relabelIds db old cursor exclude take
      match ids.getLast? with
      | none => pure (done, batches)
      | some last =>
        let n ← write ((chunked inChunk [] ids).foldlM (fun n chunk => do
          let k ← relabelChunk old new chunk
          pure (n + k)) 0)
        relabelLoop old new batch limit exclude fuel (done + n) (batches + 1) last

/-- `relabel_state`; returns the rows relabelled and the batches. -/
def relabelState (old new : String) (batch : ℕ) (limit : Option ℕ) (exclude : Option String) :
    DbM (ℕ × ℕ) :=
  if old ∉ legacyLiveStates ∨ new ≠ stateLive then
    throw (.valueError ("relabel_state(" ++ reprStr old ++ ", " ++ reprStr new
      ++ "): only a legacy committed or draft to " ++ reprStr stateLive))
  else do
    let fuel ← readDb fun db => db.vertex.keys.length + 1
    relabelLoop old new (max 1 batch) limit exclude fuel 0 0 ""

/-! ### Task transitions -/

/-- `_patch_doc`: keep the document in step with its task row. -/
def patchDoc (aid : String) (fields : Doc) : DbM PUnit := do
  let r ← readDb fun db => db.vertex.lookup aid
  match r with
  | none => pure ⟨⟩
  | some r =>
    let col ← Tx.ofExcept (r.doc.val.update fields).toCol
    setDoc aid r col

def optText : Option String → Val
  | none => .none
  | some s => .str s

def moveTask (id : String) (t : TaskRow) (t' : TaskRow) (fields : Doc) : DbM PUnit := do
  onDb fun db => { db with task := db.task.insert id t' }
  patchDoc id fields
  onDb fun db => (db.bump (cTaskStatus t.ct t.status) (-1)).bump (cTaskStatus t.ct t'.status) 1

def tryClaim (id workerId nowIso : String) : DbM Bool :=
  write do
    let r ← readDb fun db => db.task.lookup id
    match r with
    | none => pure false
    | some t =>
      if t.status = "pending" then
        moveTask id t
          { t with status := "claimed", claimedBy := .str workerId, claimedAt := .str nowIso }
          [("status", .str "claimed"), ("claimed_by", .str workerId), ("claimed_at", .str nowIso)]
        pure true
      else pure false

def renewLease (id nowIso : String) : DbM Bool :=
  write do
    let r ← readDb fun db => db.task.lookup id
    match r with
    | none => pure false
    | some t =>
      if t.status = "claimed" then
        onDb fun db => { db with task := db.task.insert id { t with claimedAt := .str nowIso } }
        patchDoc id [("claimed_at", .str nowIso)]
        pure true
      else pure false

def release (id toStatus : String) (nextRetryAt : Option String) : DbM Bool :=
  write do
    let r ← readDb fun db => db.task.lookup id
    match r with
    | none => pure false
    | some t =>
      if t.status = "claimed" then
        moveTask id t
          { t with status := toStatus, claimedBy := .none, nextRetryAt := optText nextRetryAt }
          [("status", .str toStatus), ("claimed_by", .none),
            ("next_retry_at", optText nextRetryAt)]
        pure true
      else pure false

/-- `settle`: the claimer's own exit. -/
def settle (id workerId toStatus : String) (nextRetryAt completedAt : Option String)
    (fields : Doc) : DbM Bool :=
  write do
    let r ← readDb fun db => db.task.lookup id
    match r with
    | none => pure false
    | some t =>
      if t.status = "claimed" ∧ t.claimedBy.eqStr workerId then
        moveTask id t
          { t with status := toStatus, claimedBy := .none, nextRetryAt := optText nextRetryAt,
                   completedAt := optText completedAt }
          (fields.update [("status", .str toStatus), ("claimed_by", .none),
            ("next_retry_at", optText nextRetryAt), ("completed_at", optText completedAt)])
        pure true
      else pure false

end Mantle
