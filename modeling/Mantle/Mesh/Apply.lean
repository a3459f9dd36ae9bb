import Mantle.Py.JsonLoads
import Mantle.Db.Tables

/-!
# Mantle.Mesh.Apply — applying a peer's rows and edges (`mesh/sync.py`)

The inbound half of replication: what is refused by its type, what is declined by its version, what is written as it
came, and the two operational rows the apply keeps for itself.
-/

namespace Mantle

open Tx

variable {d : Doc} {k : String}

/-! ### Which rows cross the mesh -/

def opExclude : List String :=
  ["application/vnd.agience.task+json", "application/vnd.agience.mirror-task+json",
   "application/vnd.agience.mesh-cursor+json", "application/vnd.agience.content-cursor+json",
   "application/vnd.agience.shard-done+json", "application/vnd.agience.s3sync-cursor+json",
   "application/vnd.agience.materialized-marker+json", "application/vnd.agience.sensor+json",
   "application/x-ember-state"]

/-- `sub in s`. -/
def hasText (s sub : String) : Bool := decide (sub.toList <:+: s.toList)

def startsText (s t : String) : Bool := t.toList.isPrefixOf s.toList

/-- `str(content_type or "")`. -/
def typeText (ct : Val) : String := (ct.orElse (.str "")).pyStr

def isReplicated (ct : Val) : Bool :=
  let s := typeText ct
  decide (s ∉ opExclude) && !(startsText s "application/x-probe" ||
    startsText s "application/vnd.agience.probe" || hasText s "throwaway")

def authorityTypes : List String := ["+grant+json", "grant+json", ".grant", "vnd.agience.grant"]

/-- `_confers_authority`.  The markers are ASCII, and no letter outside ASCII has one of theirs as its
lower case. -/
def confersAuthority (ct : Val) : Bool :=
  let s := String.ofList ((typeText ct).toList.map Char.toLower)
  authorityTypes.any fun marker => hasText s marker

/-- The rows of a segment that are looked at: an id, and a type that replicates. -/
def replicatedItems (items : List Doc) : List Doc :=
  items.filter fun d => (d.get "id").truthy && isReplicated (d.get "content_type")

/-- The rows that are not refused for conferring authority. -/
def keptItems (items : List Doc) : List Doc :=
  (replicatedItems items).filter fun d => !confersAuthority (d.get "content_type")

/-! ### Contexts -/

/-- `SERVER_OWNED_KEYS`: what the mint writes, and what the write paths record. -/
def serverOwnedKeys : List String :=
  ["minted_by", "minted", "placement", "addressing", "screen", "enriched", "caller", "provenance",
   "provenance_history", "provenance_evidence"] ++
  ["content_key", "content_cas_ref", "content_sha256", "content_bytes", "upload", "processing",
   "storage", "access", "content_source", "uri"]

section Contexts

variable (float : String → Flt)

def parseContext (v : Val) : Doc :=
  match v with
  | .none => []
  | .dict items => docOfItems items
  | .str s =>
    if s = "" then []
    else
      match Json.loads float s with
      | some (.dict items) => docOfItems items
      | _ => [("_opaque", v)]
  | _ => [("_opaque", v)]

/-- `client_part`, of a parsed context. -/
def clientPart (ctx : Doc) : Doc := ctx.without fun k => k ∈ serverOwnedKeys

/-- `client_view`, of a parsed context. -/
def clientView (ctx : Doc) : Doc :=
  let nested := match ctx.get "caller" with
    | .dict items => clientPart (docOfItems items)
    | _ => []
  nested.update (clientPart ctx)

/-- `with_client_keys`, before it is serialized. -/
def withClientKeys (ctx keys : Doc) : Doc :=
  (ctx.without fun k => k ∉ serverOwnedKeys || k = "caller").update (clientPart keys)

/-- `_normalise_context`: client keys held under `caller` move to the top level. -/
def normaliseContext (doc : Doc) : Except PyErr Doc :=
  let parsed := parseContext float (doc.get "context")
  if (parsed.find? "caller").isNone then .ok doc
  else
    let stored := withClientKeys parsed (clientView parsed)
    match doc.get "context" with
    | .dict _ => (stored.dumps .plain).map fun _ => doc.set "context" (.dict stored.norm.toItems)
    | _ => (stored.dumps .plain).map fun text => doc.set "context" (.str text)

end Contexts

def normaliseLegacyState (doc : Doc) : Doc :=
  if legacyLiveStates.any fun s => (doc.get "state").eqStr s then doc.set "state" (.str stateLive)
  else doc

/-! ### Operational rows -/

def s3syncCt : String := "application/vnd.agience.s3sync-cursor+json"
def declinedId : String := "mesh.unordered.declined"
def consumedId : String := "mesh.consumed.pending"
def declinedCap : ℕ := 10000
def consumedCap : ℕ := 50000

def opOrigin (id : String) : String := "_local:" ++ id

def putOpError (doc : Doc) : PyErr :=
  .valueError ("_put_op refuses id=" ++ (doc.get "id").repr ++ " content_type="
    ++ (doc.get "content_type").repr
    ++ ": that type REPLICATES, and an operational write pins (_origin,_seq) outside every observer's "
    ++ "sequence — the row could never be published. Use put_artifact(stamp_rev=True), or add the type "
    ++ "to _OP_EXCLUDE.")

/-- The document `_put_op` writes, pinned outside every observer's proper time. -/
def opDoc (doc : Doc) : Doc :=
  (doc.set "_origin" (.str (opOrigin (doc.get "id").pyStr))).set "_seq" (.int 1)

def putOp (doc : Doc) : DbM PUnit :=
  if isReplicated (doc.get "content_type") then throw (putOpError doc)
  else do
    let _ ← putArtifact (opDoc doc) false false
    pure ⟨⟩

/-- `get_artifact(id) or {}`. -/
def artifactOr (db : Store) (id : String) : Doc :=
  match db.vertex.lookup id with
  | some r => r.doc.val
  | none => []

/-! ### Declining what cannot be ordered -/

/-- The document's version cannot be ordered against the local row's. -/
def isUnordered (db : Store) (doc : Doc) : Bool :=
  match (doc.get "_origin").asStr, (doc.get "_seq").asInt with
  | some _, some _ =>
    (db.vertex.lookup (doc.get "id").pyStr).any fun r =>
      compareVersion (doc.get "_origin") (doc.get "_seq") r.origin r.seq = .unordered
  | _, _ => false

def newlyDeclined (db : Store) (batch : List Doc) : Doc :=
  (batch.filter (isUnordered db)).foldl
    (fun acc d => acc.set (d.get "id").pyStr (.list [d.get "_origin", d.get "_seq"])) []

def declinedDoc (db : Store) (newly : Doc) : Doc :=
  let seen := match (artifactOr db declinedId).get "seen" with
    | .dict items => docOfItems items
    | _ => []
  let merged := seen.update newly
  let overflow := decide (merged.length > declinedCap)
  let kept := if overflow then (merged.insertionSort fun e f => e.1 ≤ f.1).take declinedCap else merged
  [("id", .str declinedId), ("content_type", .str s3syncCt), ("state", .str "live"),
   ("seen", .dict kept.toItems), ("n", .int kept.length), ("truncated", .bool overflow),
   ("note", .str "unordered concurrent authorship; no order was synthesized")]

def recordDeclined (db : Store) (newly : Doc) : DbM PUnit :=
  if newly.isEmpty then pure ⟨⟩ else putOp (declinedDoc db newly)

def splitUnordered (batch : List Doc) : DbM (List Doc × ℕ) := do
  let n ← get
  recordDeclined n.db (newlyDeclined n.db batch)
  pure (batch.filter fun d => !isUnordered n.db d, (newlyDeclined n.db batch).length)

/-! ### Queueing consumed content -/

/-- The ids of a batch whose content the drain has to promote. -/
def consumedIds (me : String) (batch : List Doc) : List String :=
  (batch.filter fun d =>
    let origin := ((d.get "_origin").orElse (.str "")).pyStr
    (d.get "id").truthy && (d.get "content_ref").truthy && decide (origin ≠ "" ∧ origin ≠ me)).map
    fun d => (d.get "id").pyStr

/-- `list(dict.fromkeys(xs))`; entries are compared by their `repr`. -/
def dedupVals : List String → List Val → List Val
  | _, [] => []
  | seen, v :: vs => if v.repr ∈ seen then dedupVals seen vs else v :: dedupVals (v.repr :: seen) vs

/-- The queue with the new ids. -/
def consumedDoc (db : Store) (ids : List String) : Doc :=
  let cur := artifactOr db consumedId
  let pend := match cur.get "pending" with
    | .list xs => xs
    | _ => []
  let merged := dedupVals [] (pend ++ ids.map Val.str)
  let overflow := (cur.get "overflow").truthy || decide (merged.length > consumedCap)
  let kept := if overflow then merged.take consumedCap else merged
  [("id", .str consumedId), ("content_type", .str s3syncCt), ("state", .str "live"),
   ("pending", .list kept), ("n", .int kept.length), ("overflow", .bool overflow)]

def enqueueConsumed (batch : List Doc) : DbM PUnit := do
  let n ← get
  let ids := consumedIds n.origin batch
  if ids.isEmpty then pure ⟨⟩ else putOp (consumedDoc n.db ids)

/-! ### Applying artifacts -/

def storedForm (float : String → Flt) (d : Doc) : Except PyErr Doc :=
  normaliseContext float (normaliseLegacyState d)

def partialApplyError (wrote total : ℕ) : PyErr :=
  .runtimeError ("partial apply: wrote " ++ toString wrote ++ " of " ++ toString total)

def writeBatch (float : String → Flt) (batch : List Doc) (refused declined : ℕ) : DbM ℕ := do
  let docs ← Tx.ofExcept (batch.mapM (storedForm float))
  let written ← putMany docs 500 false .keepLocal
  if written < docs.length then throw (partialApplyError (written + refused) docs.length)
  else do
    enqueueConsumed docs
    pure (written + refused + declined)

def applyArtifacts (float : String → Flt) (items : List Doc) : DbM ℕ :=
  let refused := (replicatedItems items).length - (keptItems items).length
  if (keptItems items).isEmpty then pure refused
  else do
    let split ← splitUnordered (keptItems items)
    if split.1.isEmpty then pure split.2 else writeBatch float split.1 refused split.2

/-! ### Applying edges -/

def consumedEdgeOrigin (src dst label : String) : String :=
  "_local:edge:" ++
    hexOfBytes (Blake2b.hash 16 (utf8 (src ++ "\x00" ++ dst ++ "\x00" ++ label)))

def pairOf : Val → Option (String × Val)
  | .list [.str k, v] => some (k, v)
  | .tuple [.str k, v] => some (k, v)
  | .str s =>
    match s.toList with
    | [a, b] => some (a.toString, .str b.toString)
    | _ => none
  | _ => none

/-- `dict(props)`. -/
def dictOf : Val → Except PyErr Doc
  | .dict items => .ok (docOfItems items)
  | .list xs =>
    match xs.mapM pairOf with
    | some pairs => .ok (Doc.update [] pairs)
    | none => .error (.typeError "cannot convert dictionary update sequence")
  | _ => .error (.typeError "object is not iterable")

/-- An edge of the wire with a version it may keep, else with a reserved one of its own. -/
def stampEdge (me : String) (item : Doc) : Except PyErr EdgeArg := do
  let src := item.get "f"
  let dst := item.get "t"
  let label := (item.get "label").orElse (.str "link")
  let props ← dictOf ((item.get "props").orElse (.dict []))
  let usable := match (props.get "_origin").asStr, (props.get "_seq").asInt with
    | some o, some _ => decide (o ≠ "" ∧ o ≠ me)
    | _, _ => false
  pure (.tuple src dst label
    (if usable then props
     else (props.set "_origin" (.str (consumedEdgeOrigin src.pyStr dst.pyStr label.pyStr))).set "_seq"
       (.int 1)))

def partialEdgesError (handled total : ℕ) : PyErr :=
  .runtimeError ("edge segment partially applied: " ++ toString handled ++ " of " ++ toString total
    ++ " edges handled. Holding the consume cursor so this segment is retried rather than silently "
    ++ "skipped.")

def edgeItems (items : List Doc) : List Doc :=
  items.filter fun e => (e.get "f").truthy && (e.get "t").truthy

def applyEdges (items : List Doc) : DbM ℕ :=
  if (edgeItems items).isEmpty then pure 0
  else do
    let n ← get
    let stamped ← Tx.ofExcept ((edgeItems items).mapM (stampEdge n.origin))
    let handled ← addEdges stamped 500 false
    if handled < stamped.length then throw (partialEdgesError handled stamped.length)
    else pure stamped.length

def applySegment (float : String → Flt) (items edges : List Doc) : DbM PUnit := do
  let _ ← applyArtifacts float items
  let _ ← applyEdges edges
  pure ⟨⟩

/-- The node after a segment, however the apply ended. -/
def Node.applied (float : String → Flt) (n : Node) (items edges : List Doc) : Node :=
  match applySegment float items edges n with
  | .ok _ n' => n'
  | .error _ n' => n'

def litFloat (s : String) : Flt := ⟨s, "", none, false, noSlash_empty⟩

/-! ### What the stored form keeps -/

theorem normaliseLegacyState_get (hk : k ≠ "state") :
    (normaliseLegacyState d).get k = d.get k := by
  unfold normaliseLegacyState
  split_ifs
  · exact Doc.get_set_of_ne _ _ hk
  · rfl

theorem normaliseContext_get {float : String → Flt} {d' : Doc} (h : normaliseContext float d = .ok d')
    (hk : k ≠ "context") : d'.get k = d.get k := by
  have hset : ∀ (x : Except PyErr String) (v : String → Val),
      (x.map fun t => d.set "context" (v t)) = .ok d' → d'.get k = d.get k := by
    intro x v hx
    cases x with
    | error e => cases hx
    | ok t =>
      cases hx
      exact Doc.get_set_of_ne _ _ hk
  unfold normaliseContext at h
  dsimp only at h
  split_ifs at h
  · cases h
    rfl
  · split at h
    · exact hset _ _ h
    · exact hset _ _ h

theorem storedForm_get {float : String → Flt} {d' : Doc} (h : storedForm float d = .ok d')
    (hc : k ≠ "context") (hs : k ≠ "state") :
    d'.get k = d.get k :=
  (normaliseContext_get h hc).trans (normaliseLegacyState_get hs)

/-! ### The shape of an operational row -/

/-- An operational document: its type, and nothing the gate reads. -/
structure OpShaped (id : String) (d : Doc) : Prop where
  id : d.get "id" = .str id
  type : d.get "content_type" = .str s3syncCt
  root : d.get "root_id" = .none
  collection : d.get "collection_id" = .none
  originRoot : d.get "origin_root" = .none

theorem OpShaped.pinned {id : String} (h : OpShaped id d) : OpShaped id (opDoc d) := by
  have hget : ∀ k, k ≠ "_origin" → k ≠ "_seq" → (opDoc d).get k = d.get k := by
    intro k h1 h2
    unfold opDoc
    rw [Doc.get_set_of_ne _ _ h2, Doc.get_set_of_ne _ _ h1]
  exact ⟨(hget _ (by decide) (by decide)).trans h.id, (hget _ (by decide) (by decide)).trans h.type,
    (hget _ (by decide) (by decide)).trans h.root,
    (hget _ (by decide) (by decide)).trans h.collection,
    (hget _ (by decide) (by decide)).trans h.originRoot⟩

theorem OpShaped.placement {id : String} (h : OpShaped id d) : placement d = none := by
  unfold Mantle.placement
  rw [h.collection]
  rfl

theorem opShaped_declinedDoc (db : Store) (newly : Doc) :
    OpShaped declinedId (declinedDoc db newly) := ⟨rfl, rfl, rfl, rfl, rfl⟩

theorem opShaped_consumedDoc (db : Store) (ids : List String) :
    OpShaped consumedId (consumedDoc db ids) := ⟨rfl, rfl, rfl, rfl, rfl⟩

theorem newlyDeclined_exists {db : Store} {batch : List Doc}
    (h : ¬(newlyDeclined db batch).isEmpty = true) : ∃ d ∈ batch, isUnordered db d = true := by
  by_contra hno
  apply h
  have hnil : batch.filter (isUnordered db) = [] := by
    rw [List.filter_eq_nil_iff]
    exact fun d hd hu => hno ⟨d, hd, hu⟩
  unfold newlyDeclined
  rw [hnil]
  rfl

end Mantle
