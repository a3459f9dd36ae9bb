import Mantle.Access.Cascade
import Mantle.Access.Envelope
import Mantle.Auth.Issuers
import Mantle.Db.Written

/-!
# Mantle.Service.Artifacts — artifacts as entities (`db/lattice_api.py`, `services/workspace_service.py`)

A service reads a row as an entity, changes the entity and writes the whole of it back.  What a call is served with is
a parameter.
-/

namespace Mantle

open Tx

variable {db : Store} {k ws x : String}

/-! ### Values as Python compares them -/

/-- `a == b` of floats; `nan` equals nothing. -/
def Flt.pyEq (f g : Flt) : Bool :=
  (f.integral && g.integral && f.trunc == g.trunc) || (f.repr == g.repr && f.repr ≠ "nan")

mutual

/-- `a == b`. -/
def Val.pyEq : Val → Val → Bool
  | .none, b => b.isNone
  | .bool x, b => b.eqInt (if x then 1 else 0)
  | .int n, b => b.eqInt n
  | .float f, .float g => f.pyEq g
  | .float f, b =>
    match b.asInt with
    | some n => f.integral && f.trunc == some n
    | Option.none => false
  | .str s, b => b.eqStr s
  | .bytes x, .bytes y => x == y
  | .list xs, .list ys => Val.pyEqList xs ys
  | .tuple xs, .tuple ys => Val.pyEqList xs ys
  | .dict xs, .dict ys => xs.length == ys.length && Val.pyEqItems xs ys
  | _, _ => false

def Val.pyEqList : List Val → List Val → Bool
  | [], [] => true
  | x :: xs, y :: ys => Val.pyEq x y && Val.pyEqList xs ys
  | _, _ => false

/-- Each key is there in the second with an equal value. -/
def Val.pyEqItems : List (Key × Val) → List (Key × Val) → Bool
  | [], _ => true
  | (k, v) :: xs, ys =>
    (match ys.find? fun e => e.1 == k with
      | some e => Val.pyEq v e.2
      | Option.none => false) && Val.pyEqItems xs ys

end

def Doc.pyEq (d e : Doc) : Bool := Val.pyEq (.dict d.toItems) (.dict e.toItems)

/-! ### Contexts (`services/mint_context.py`) -/

def mintKeys : List String :=
  ["minted_by", "minted", "placement", "addressing", "screen", "enriched", "caller", "provenance",
   "provenance_history", "provenance_evidence"]

section Contexts

variable (float : String → Flt)

def withClientKeysText (ctx keys : Doc) : Except PyErr Val := ((withClientKeys ctx keys).dumps .plain).map Val.str

def normalised (value : Val) : Except PyErr Val :=
  let ctx := parseContext float value
  if ctx.map Prod.fst == ["_opaque"] then .ok value
  else
    ((withClientKeys ctx (clientView ctx)).dumps .plain).map fun out =>
      match value, Json.loads float out with
      | .str _, some (.dict items) => if (docOfItems items).pyEq ctx then value else .str out
      | _, _ => .str out

def withContentType (stored : Val) (contentType : String) : Except PyErr Val :=
  let ctx := parseContext float stored
  let keys := clientView ctx
  if (keys.find? "content_type").isNone || (keys.get "content_type").eqStr contentType then .ok stored
  else withClientKeysText ctx (keys.set "content_type" (.str contentType))

/-- `readdressed`, of a new plaintext. -/
def readdressed (sha256 : String → String) (stored : Val) (content : String) : Except PyErr Val :=
  let ctx := (parseContext float stored).without (· = "enriched")
  let ctx := match ctx.get "addressing" with
    | .dict items =>
      ctx.set "addressing" (.dict (((docOfItems items).set "sha256" (.str (sha256 content))).set "bytes"
        (.int (utf8 content).length)).toItems)
    | _ => ctx
  withClientKeysText ctx (clientView ctx)

/-- A context that is a JSON object in a text; every other one is empty here. -/
def loadedContext : Val → Doc
  | .str s =>
    if s = "" then []
    else
      match Json.loads float s with
      | some (.dict items) => docOfItems items
      | _ => []
  | _ => []

def recordContentAddress (context : Val) (contentKey : String) (casRef : Option String) : Except PyErr Val :=
  let ctx := (loadedContext float context).set "content_key" (.str contentKey)
  let ctx := match casRef with
    | some r => if r = "" then ctx.without (· = "content_cas_ref") else ctx.set "content_cas_ref" (.str r)
    | none => ctx.without (· = "content_cas_ref")
  withClientKeysText ctx (clientView ctx)

def safeContentKey (ctx : Doc) (artifactId : String) : String :=
  let derived := "artifacts/" ++ artifactId ++ ".content"
  match ctx.get "content_key" with
  | .str claimed =>
    if claimed = "" then derived
    else if claimed = derived ∨ ("/" ++ artifactId ++ ".content").toList <:+ claimed.toList then claimed
    else derived
  | _ => derived

/-- `_mint_member_context`, with the mint that was made; `none` is one that failed. -/
def mintMemberContext (context : Val) (made : Option Doc) : Except PyErr Val :=
  let own := (parseContext float context).without (· ∈ mintKeys)
  match made with
  | some made => normalised float (.dict (own.update made).toItems)
  | none => normalised float (.dict own.toItems)

end Contexts

/-! ### What a service raises -/

inductive ServiceErr
  | access (e : AccessErr)
  | raised (e : PyErr)
deriving DecidableEq, Repr

/-- A service call; what it wrote before an exception stays. -/
abbrev ServiceM := EStateM ServiceErr Node

section Lifts

variable {α : Type}

def http (status : ℕ) (detail : String) : ServiceM α := throw (.access (.http status detail))

def ofAccess (x : Except AccessErr α) : ServiceM α := Tx.ofExcept (x.mapError ServiceErr.access)

def ofPy (x : Except PyErr α) : ServiceM α := Tx.ofExcept (x.mapError ServiceErr.raised)

def stored (m : DbM α) : ServiceM α := fun n =>
  match m n with
  | .ok a n' => .ok a n'
  | .error e n' => .error (.raised e) n'

end Lifts

/-! ### Rows as entities -/

/-- What a call is served with: how numbers read, the ciphers, an id, the clock, the digest, and what storing bytes
answers. -/
structure Serving where
  float : String → Flt
  ciphers : Crypto
  clock : Fresh
  sha256 : String → String
  /-- `put_bytes_encrypted`: under a key, a text of a type, for an owner, in a collection, by a creator. -/
  putBytes : String → String → Val → Val → Val → Val → Except PyErr (Option String)

def unversionedSealedKeys : List String :=
  ["content_sha256", "content_bytes", "size", "addressing", "minted", "minted_by", "placement", "provenance"]

/-- `versioned_view`: the context's part and the document's. -/
def versionedView (float : String → Flt) (doc : Doc) : Doc × Doc :=
  let ctx := (contextDict float doc).1.getD []
  (((sealableKeys doc ctx).filter (· ∉ unversionedSealedKeys)).map fun k => (k, ctx.get k),
    (sealableDocFields doc ctx).map fun k => (k, doc.get k))

/-- `get_latest_live_artifact`, before it is opened. -/
def latestLive (db : Store) (rootId : String) (collectionId : Option String) : Option Doc :=
  (versionsOf db rootId).reverse.find? fun d =>
    decide (stateOf d ≠ "archived") &&
      match collectionId with
      | some c => c = "" || (d.get "collection_id").eqStr c
      | none => true

/-- `_stamp_origin_root`. -/
def inheritOriginRoot (db : Store) (a : Artifact) : Artifact :=
  if a.originRoot.truthy then a
  else if !a.collectionId.truthy then { a with originRoot := a.id }
  else
    let parent := (docOf db a.collectionId.pyStr).getD []
    if (parent.get "origin_root").truthy then { a with originRoot := parent.get "origin_root" }
    else
      match getOriginRoot db a.collectionId.pyStr with
      | .ok r => { a with originRoot := .str r }
      | .error _ => a

namespace Serving

variable (S : Serving)

/-- `from_lattice_doc`. -/
def entity : Option Doc → Except PyErr (Option Artifact)
  | none => .ok none
  | some raw => (fromLatticeDoc S.float S.ciphers S.clock raw).map some

def contentChanged (db : Store) (a : Artifact) : Except PyErr Bool :=
  match a.id.asStr.bind (docOf db) with
  | none => .ok false
  | some prior =>
    match decryptArtifactContent S.float S.ciphers true prior with
    | .error _ => .ok false
    | .ok before =>
      a.toDict.map fun after =>
        let viewed := versionedView S.float before
        let view := versionedView S.float after
        !(((before.get "content_ref").orElse .none).pyEq ((after.get "content_ref").orElse .none)) ||
          (!(after.get "content_ref").truthy &&
            !(((before.get "content").orElse (.str "")).pyEq ((after.get "content").orElse (.str "")))) ||
          !(viewed.1.pyEq view.1 && viewed.2.pyEq view.2)

/-- `update_artifact` of the store. -/
def updateEntity (a : Artifact) : ServiceM PUnit := do
  let n ← get
  let doc ← ofPy (toLatticeDoc S.float S.ciphers a)
  let changed ← ofPy (S.contentChanged n.db a)
  let _ ← stored (putArtifact doc true changed)
  pure ⟨⟩

/-- `create_artifact` of the store, without its event. -/
def createEntity (a : Artifact) : ServiceM Artifact := do
  let n ← get
  let a := inheritOriginRoot n.db a
  let doc ← ofPy (toLatticeDoc S.float S.ciphers a)
  let _ ← stored (putArtifact doc true false)
  pure a

end Serving

/-! ### Edits of a member -/

/-- What a call of `update_artifact` supplies. -/
structure Edit where
  context : Option Val := none
  content : Option String := none
  state : Option String := none
  contentType : Option String := none
  name : Option String := none
  description : Option String := none
  callerContext : Option Val := none
  vector : Bool := false

namespace Edit

variable (e : Edit)

/-- A field is given beside the state. -/
def combined : Bool :=
  e.context.isSome || e.content.isSome || e.contentType.isSome || e.name.isSome || e.description.isSome ||
    e.vector || e.callerContext.isSome

def setField (given : Option Val) (there : Val) (set : Val → Artifact) (a : Artifact × Bool) : Artifact × Bool :=
  match given with
  | some v => if v.pyEq there then a else (set v, true)
  | none => a

/-- `name`, `description`, `context` and `content_type` of an edit; the context's `content_type` follows the field. -/
def fields (float : String → Flt) (context : Option Val) (target : Artifact) : Except PyErr (Artifact × Bool) :=
  let a := setField (e.name.map .str) target.name (fun v => { target with name := v }) (target, false)
  let a := setField (e.description.map .str) a.1.description (fun v => { a.1 with description := v }) a
  let a := setField context a.1.context (fun v => { a.1 with context := v }) a
  match e.contentType with
  | none => .ok a
  | some t =>
    (withContentType float a.1.context t).map fun synced =>
      let a := setField (some synced) a.1.context (fun v => { a.1 with context := v }) a
      setField (some (.str t)) a.1.contentType (fun v => { a.1 with contentType := v }) a

end Edit

namespace Serving

variable (S : Serving)

/-- `_store_content_in_s3`: the key and the reference. -/
def storeContent (artifactId content : String) (context owner collection creator : Val) :
    Except PyErr (String × Option String) :=
  let ctx := loadedContext S.float context
  let key := safeContentKey ctx artifactId
  (S.putBytes key content ((ctx.get "content_type").orElse (.str "text/plain")) owner collection creator).map
    fun ref => (key, ref)

/-- The new content of an edit: stored with its address, an empty one in the row alone. -/
def replaceContent (a : Artifact) (content : String) : Except PyErr Artifact :=
  if content = "" then
    (readdressed S.float S.sha256 a.context content).map fun ctx => { a with content := .str content, context := ctx }
  else do
    let at_ ← S.storeContent a.id.pyStr content a.context a.createdBy a.collectionId .none
    let ctx ← recordContentAddress S.float a.context at_.1 at_.2
    let ctx ← readdressed S.float S.sha256 ctx content
    .ok { a with
      contentRef := match at_.2 with
        | some r => (Val.str r).orElse a.contentRef
        | none => a.contentRef
      content := .str content
      context := ctx }

def editContext (e : Edit) (target : Artifact) : Except PyErr (Option Val) :=
  match e.callerContext, e.context with
  | some c, _ => ((mergeCallerUpdate S.float target.context c).dumps .plain).map fun t => some (.str t)
  | none, some c => (normalised S.float c).map some
  | none, none => .ok none

/-- The live version after an edit, and whether anything moved. -/
def applyEdit (e : Edit) (target : Artifact) : Except PyErr (Artifact × Bool) := do
  let context ← S.editContext e target
  let a ← e.fields S.float context target
  match e.content with
  | some c => if a.1.content.eqStr c then .ok a else (S.replaceContent a.1 c).map fun b => (b, true)
  | none => .ok a

end Serving

/-- Who calls, and when: the grants that stand, the user, and the principal whose rights are checked where one is given.
-/
structure Caller where
  serving : Serving
  now : Val → Bool
  userId : String
  auth : Option String

namespace Caller

variable (K : Caller)

/-- A version of the lineage of a target that is live beside it, the newest last. -/
def otherLive (db : Store) (target : Artifact) : List Doc :=
  (versionsOf db (target.rootId.orElse target.id).pyStr).filter fun v =>
    !((v.get "id").pyEq target.id) && decide (stateOf v ≠ stateArchived)

/-- `_refuse_restoring_a_superseded_version`. -/
def refuseSuperseded (target : Artifact) : ServiceM PUnit := do
  let n ← get
  let versions := versionsOf n.db (target.rootId.orElse target.id).pyStr
  match (otherLive n.db target).getLast? with
  | some v => http 409 ("This lineage already has a live version (" ++ (v.get "id").pyStr ++
      "); an archived version of it cannot be restored beside it.")
  | none =>
    match versions.getLast? with
    | some v =>
      if (v.get "id").pyEq target.id then pure ⟨⟩
      else http 409 ("A newer version of this lineage (" ++ (v.get "id").pyStr ++ ") exists; restore that one.")
    | none => pure ⟨⟩

/-- `_refuse_a_combined_transition`. -/
def refuseCombined (e : Edit) : ServiceM PUnit :=
  if e.combined then
    http 422 ("A state change cannot be combined with other fields. Send the state change and the edit as two "
      ++ "requests.")
  else pure ⟨⟩

/-- The entity as the caller leaves it. -/
def stamped (a : Artifact) : Artifact :=
  { a with modifiedBy := .str K.userId, modifiedTime := .str K.serving.clock.now }

def archiveEntity (target : Artifact) : ServiceM Artifact := do
  let a := K.stamped { target with state := stateArchived }
  K.serving.updateEntity a
  pure a

def restoreEntity (target : Artifact) : ServiceM Artifact := do
  refuseSuperseded target
  let a := K.stamped { target with
    state := stateLive, trashedBy := .none, trashedTime := .none, trashedFrom := .none }
  K.serving.updateEntity a
  pure a

/-- The version `update_artifact` is about: the one named, in the workspace, else the newest live one of the root. -/
def targetOf (db : Store) (workspaceId artifactId : String) : Except PyErr (Option Artifact) := do
  match ← K.serving.entity (docOf db artifactId) with
  | some a =>
    if a.collectionId.eqStr workspaceId then pure (some a)
    else K.serving.entity (latestLive db artifactId (some workspaceId))
  | none => K.serving.entity (latestLive db artifactId (some workspaceId))

/-- The current version in the container, which a caller that names another one must be allowed to update. -/
def editedVersion (workspaceId : String) (target : Artifact) : ServiceM Artifact := do
  let n ← get
  let current ← ofPy (K.serving.entity
    (currentIn (versionsOf n.db (target.rootId.orElse target.id).pyStr) workspaceId))
  match current with
  | none => pure target
  | some current =>
    match K.auth with
    | some p =>
      if current.id.pyEq target.id then pure current
      else do
        let _ ← ofAccess (checkAccess K.now n.db p current.id.pyStr Action.update.name)
        pure current
    | none => pure current

/-- `update_artifact` on the version it is about. -/
def updateTarget (workspaceId : String) (e : Edit) (target : Artifact) : ServiceM Artifact :=
  if e.state = some stateArchived ∧ target.state ≠ stateArchived then do
    refuseCombined e
    K.archiveEntity target
  else if target.state = stateArchived then
    if (e.state.getD "") ≠ "" ∧ e.state ≠ some stateArchived then do
      refuseCombined e
      K.restoreEntity target
    else http 409 "Cannot edit an archived artifact"
  else do
    let version ← K.editedVersion workspaceId target
    let a ← ofPy (K.serving.applyEdit e version)
    if !a.2 && !e.vector then pure version
    else do
      K.serving.updateEntity (K.stamped a.1)
      pure (K.stamped a.1)

/-- `update_artifact`, without its index job and its event. -/
def updateMember (workspaceId artifactId : String) (e : Edit) : ServiceM Artifact := do
  let n ← get
  let workspace ← ofPy (K.serving.entity (docOf n.db workspaceId))
  if workspace.isNone then http 404 "Workspace not found"
  else do
    let target ← ofPy (K.targetOf n.db workspaceId artifactId)
    match target with
    | none => http 404 "Artifact not found"
    | some target => K.updateTarget workspaceId e target

end Caller

/-! ### Rules for the calls -/

section Rules

variable {α : Type} {n : Node} {Q : α → Node → Prop} {E : Node → Prop}

theorem runs_ofPy {x : Except PyErr α} (h : ∀ a, x = .ok a → Q a n) (hE : E n) : Runs (ofPy x) n Q E := by
  cases x with
  | error e => exact hE
  | ok a => exact h a rfl

theorem runs_ofAccess {x : Except AccessErr α} (h : ∀ a, x = .ok a → Q a n) (hE : E n) :
    Runs (ofAccess x) n Q E := by
  cases x with
  | error e => exact hE
  | ok a => exact h a rfl

theorem runs_http {status : ℕ} {detail : String} (hE : E n) : Runs (http status detail : ServiceM α) n Q E := hE

theorem runs_stored {m : DbM α} (h : Runs m n Q E) : Runs (stored m) n Q E := by
  unfold Runs at h ⊢
  unfold stored
  cases hm : m n <;> rw [hm] at h <;> exact h

end Rules

/-! ### What an entity is read as, and written as -/

variable {r : Doc}

section Entities

variable {float : String → Flt} {C : Crypto} {fresh : Fresh} {raw : Doc} {a : Artifact}

theorem get_restoreFields_of_truthy : ∀ (top raw : Doc), (raw.get k).truthy = true →
    (restoreFields raw top).get k = raw.get k
  | [], _, _ => rfl
  | (k', v) :: top, raw, h => by
    have hstep : restoreFields raw ((k', v) :: top) =
        restoreFields (if (raw.get k').truthy then raw else raw.set k' v) top := rfl
    have hget : (if (raw.get k').truthy then raw else raw.set k' v).get k = raw.get k := by
      by_cases hk : (raw.get k').truthy = true
      · rw [if_pos hk]
      · rw [if_neg hk]
        refine Doc.get_set_of_ne raw v ?_
        rintro rfl
        exact hk h
    rw [hstep, get_restoreFields_of_truthy top _ (hget ▸ h), hget]

theorem decrypt_get {strict : Bool} (h : decryptArtifactContent float C strict raw = .ok r)
    (hk : k ∉ "context" :: bodyFields) (ht : (raw.get k).truthy = true) : r.get k = raw.get k := by
  rw [List.mem_cons, not_or] at hk
  obtain ⟨u, hu, hr⟩ := decryptArtifactContent_ok h
  have hru : r.get k = u.get k := by
    unfold Doc.get
    rw [hr k hk.2]
  rw [hru]
  rcases unsealContentFields_cases hu with ⟨rfl, -⟩ | ⟨ctx, b, f, t, -, -, hput⟩
  · rfl
  · rw [putContext_get hput hk.1, get_restoreFields_of_truthy t raw ht]

theorem fromLatticeDoc_ok (h : fromLatticeDoc float C fresh raw = .ok a) :
    ∃ r, decryptArtifactContent float C true (raw.without (· ∈ latticeInternal)) = .ok r ∧
      Artifact.ofDict fresh r = .ok a := by
  unfold fromLatticeDoc at h
  cases hr : decryptArtifactContent float C true (raw.without (· ∈ latticeInternal)) with
  | error e =>
    rw [hr] at h
    cases h
  | ok r =>
    rw [hr] at h
    exact ⟨r, rfl, h⟩

theorem entity_get
    (hr : decryptArtifactContent float C true
    (raw.without (· ∈ latticeInternal)) = .ok r) (hk : k ∉ "context" :: bodyFields ++ latticeInternal)
    (ht : (raw.get k).truthy = true) : r.get k = raw.get k := by
  rw [List.mem_append, not_or] at hk
  have hwithout : (raw.without (· ∈ latticeInternal)).get k = raw.get k :=
    Doc.get_without raw (by simpa using hk.2)
  rw [decrypt_get hr hk.1 (hwithout ▸ ht), hwithout]

structure Placing (r : Doc) (uuid : String) (a : Artifact) : Prop where
  state : a.state = stateOf r
  known : stateOf r = stateLive ∨ stateOf r = stateArchived
  id : a.id = ((r.get "id").orElse (r.get "_key")).orElse (.str uuid)
  rootId : a.rootId = (r.get "root_id").orElse a.id
  collectionId : a.collectionId = (r.find? "collection_id").getD (.str "")

theorem ofDict_placing (h : Artifact.ofDict fresh r = .ok a) : Placing r fresh.uuid a := by
  unfold Artifact.ofDict at h
  dsimp only at h
  by_cases hs : stateOf r ∈ [stateLive, stateArchived]
  · rw [if_neg (not_not.mpr hs)] at h
    cases h
    exact ⟨rfl, by simpa using hs, rfl, rfl, rfl⟩
  · rw [if_pos hs] at h
    cases h

theorem fromLatticeDoc_id (h : fromLatticeDoc float C fresh raw = .ok a) (hid : raw.get "id" = .str x) (hx : x ≠ "") :
    a.id = .str x := by
  obtain ⟨r, hr, ha⟩ := fromLatticeDoc_ok h
  have hget := entity_get hr (k := "id") (by decide) (by simp [hid, hx])
  rw [(ofDict_placing ha).id, hget, hid]
  simp [Val.orElse, hx]

theorem toLatticeDoc_id {d : Doc} (h : toLatticeDoc float C a = .ok d) (hid : a.id = .str x) :
    d.get "id" = .str x :=
  (toLatticeDoc_given h).2 x hid

end Entities

/-! ### The write of an entity -/

section Update

variable {S : Serving} {a : Artifact} {n : Node}

/-- **`update_artifact` of the store**: the entity's document is put, or nothing is. -/
theorem updateEntity_runs : Runs (S.updateEntity a) n
    (fun _ n' => ∃ doc changed out, toLatticeDoc S.float S.ciphers a = .ok doc ∧
      putArtifact doc true changed n = .ok out n')
    fun n' => n' = n ∨ ∃ doc changed e, toLatticeDoc S.float S.ciphers a = .ok doc ∧
      putArtifact doc true changed n = .error e n' := by
  unfold Serving.updateEntity
  refine runs_bind (runs_get (runs_bind (runs_ofPy ?_ (.inl rfl))))
  intro doc hdoc
  refine runs_bind (runs_ofPy ?_ (.inl rfl))
  intro changed _
  refine runs_bind (runs_stored ?_)
  unfold Runs
  cases hp : putArtifact doc true changed n with
  | ok out n' => exact ⟨doc, changed, out, hdoc, hp⟩
  | error e n' => exact .inr ⟨doc, changed, e, hdoc, hp⟩

theorem entity_some {raw : Option Doc} {a : Artifact} (h : S.entity raw = .ok (some a)) :
    ∃ d, raw = some d ∧ fromLatticeDoc S.float S.ciphers S.clock d = .ok a := by
  cases raw with
  | none => cases h
  | some d =>
    obtain ⟨b, hb, he⟩ := map_ok h
    exact ⟨d, rfl, (Option.some.inj he) ▸ hb⟩

theorem entity_none {raw : Option Doc} (h : S.entity raw = .ok none) : raw = none := by
  cases raw with
  | none => rfl
  | some d =>
    obtain ⟨b, hb, he⟩ := map_ok h
    cases he

end Update

/-! ### The live versions of a lineage -/

def LiveVersion (db : Store) (rootId x : String) : Prop :=
  ∃ r, db.vertex.lookup x = some r ∧ r.rootId.eqStr rootId = true ∧ stateOf r.doc.val ≠ stateArchived

variable {v : Doc}

section Live

variable {K : Caller} {c root : String}

theorem entity_live (hd : Named db) (hv : v ∈ versionsOf db root) (hs : stateOf v ≠ "archived") {a : Artifact}
    (ha : K.serving.entity (some v) = .ok (some a)) :
    ∃ x, a.id = .str x ∧ LiveVersion db root x := by
  obtain ⟨x, r, hr, hroot, rfl⟩ := mem_versionsOf hv
  obtain ⟨d, hd', hread⟩ := entity_some ha
  cases hd'
  exact ⟨x, fromLatticeDoc_id hread (hd x r hr).2 (hd x r hr).1, r, hr, hroot, hs⟩

theorem mem_currentIn {vs : List Doc} (h : currentIn vs c = some v) :
    v ∈ vs ∧ stateOf v ≠ "archived" ∧ (v.get "collection_id").eqStr c = true := by
  have hp := List.find?_some h
  simp only [Bool.and_eq_true, decide_eq_true_eq] at hp
  exact ⟨List.mem_reverse.mp (List.mem_of_find?_eq_some h), hp.1, hp.2⟩

theorem mem_latestLive {coll : Option String} (h : latestLive db root coll = some v) :
    v ∈ versionsOf db root ∧ stateOf v ≠ "archived" := by
  have hp := List.find?_some h
  simp only [Bool.and_eq_true, decide_eq_true_eq] at hp
  exact ⟨List.mem_reverse.mp (List.mem_of_find?_eq_some h), hp.1⟩

theorem latestLive_none (h : latestLive db root none = none) (x : String) : ¬LiveVersion db root x := by
  rintro ⟨r, hr, hroot, hs⟩
  have hmem : r.doc.val ∈ versionsOf db root := by
    unfold versionsOf
    simp only [List.mem_map, List.mem_insertionSort, List.mem_filter, Prod.exists]
    exact ⟨x, r, ⟨Table.mem_toPairs.mpr hr, hroot⟩, rfl⟩
  have hno := List.find?_eq_none.mp h r.doc.val (List.mem_reverse.mpr hmem)
  exact hno (by simpa [stateArchived] using hs)

theorem targetOf_live (hd : Named db) {a : Artifact} (h : K.targetOf db ws x = .ok (some a)) :
    a.id = .str x ∨ ∃ y, a.id = .str y ∧ LiveVersion db x y := by
  have hlatest : K.serving.entity (latestLive db x (some ws)) = .ok (some a) → ∃ y, a.id = .str y ∧ LiveVersion db x y := by
    intro hl
    obtain ⟨v, hv, -⟩ := entity_some hl
    rw [hv] at hl
    obtain ⟨hmem, hs⟩ := mem_latestLive hv
    exact entity_live hd hmem hs hl
  unfold Caller.targetOf at h
  obtain ⟨named, hnamed, h⟩ := bind_ok h
  cases named with
  | none => exact .inr (hlatest h)
  | some b =>
    dsimp only at h
    split_ifs at h
    · cases h
      obtain ⟨d, hdoc, hread⟩ := entity_some hnamed
      unfold docOf at hdoc
      obtain ⟨r, hr, he⟩ := Option.bind_eq_some_iff.mp hdoc
      split_ifs at he
      cases he
      exact .inl (fromLatticeDoc_id hread (hd x r hr).2 (hd x r hr).1)
    · exact .inr (hlatest h)

end Live

/-! ### Entities of rows -/

def EntityOf (S : Serving) (db : Store) (a : Artifact) : Prop :=
  ∃ y r, db.vertex.lookup y = some r ∧ fromLatticeDoc S.float S.ciphers S.clock r.doc.val = .ok a

section EntityOf

variable {K : Caller} {S : Serving} {db : Store} {a : Artifact}

theorem docOf_row {d : Doc} (h : docOf db x = some d) :
    ∃ r, db.vertex.lookup x = some r ∧ r.doc.val = d := by
  unfold docOf at h
  obtain ⟨r, hr, he⟩ := Option.bind_eq_some_iff.mp h
  split_ifs at he
  exact ⟨r, hr, Option.some.inj he⟩

theorem entityOf_docOf (h : S.entity (docOf db x) = .ok (some a)) : EntityOf S db a := by
  obtain ⟨d, hd, hread⟩ := entity_some h
  obtain ⟨r, hr, rfl⟩ := docOf_row hd
  exact ⟨x, r, hr, hread⟩

theorem entityOf_version {root : String} {v : Option Doc} (hv : ∀ d, v = some d → d ∈ versionsOf db root)
    (h : S.entity v = .ok (some a)) : EntityOf S db a := by
  obtain ⟨d, hd, hread⟩ := entity_some h
  obtain ⟨y, r, hr, -, rfl⟩ := mem_versionsOf (hv d hd)
  exact ⟨y, r, hr, hread⟩

theorem entityOf_latestLive {root : String} {coll : Option String}
    (h : S.entity (latestLive db root coll) = .ok (some a)) : EntityOf S db a :=
  entityOf_version (fun _ hd => (mem_latestLive hd).1) h

theorem targetOf_entityOf (h : K.targetOf db ws x = .ok (some a)) : EntityOf K.serving db a := by
  unfold Caller.targetOf at h
  obtain ⟨named, hnamed, h⟩ := bind_ok h
  cases named with
  | none => exact entityOf_latestLive h
  | some b =>
    dsimp only at h
    split_ifs at h
    · cases h
      exact entityOf_docOf hnamed
    · exact entityOf_latestLive h

theorem editedVersion_runs {n : Node} {target : Artifact} (ht : EntityOf K.serving n.db target) :
    Runs (K.editedVersion ws target) n (fun a n' => n' = n ∧ EntityOf K.serving n.db a) fun n' => n' = n := by
  unfold Caller.editedVersion
  refine runs_bind (runs_get (runs_bind (runs_ofPy ?_ rfl)))
  intro current hc
  cases current with
  | none => exact runs_pure ⟨rfl, ht⟩
  | some b =>
    have hb : EntityOf K.serving n.db b := entityOf_version (fun _ hd => (mem_currentIn hd).1) hc
    cases K.auth with
    | none => exact runs_pure ⟨rfl, hb⟩
    | some p =>
      refine runs_ite (fun _ => runs_pure ⟨rfl, hb⟩) fun _ => ?_
      exact runs_bind (runs_ofAccess (fun _ _ => runs_pure ⟨rfl, hb⟩) rfl)

end EntityOf

end Mantle
