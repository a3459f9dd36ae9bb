import Mantle.Access.Facets
import Mantle.Access.Mint
import Mantle.Service.Artifacts

/-!
# Mantle.Service.Create — members created and overwritten (`services/workspace_service.py`)

A member is created in a container, and a top-level artifact is edited in place.  What a create mints and the ids it
draws are parameters; the index jobs and the events are left out.
-/

namespace Mantle

open Tx

structure Creation where
  context : Val := .str ""
  content : String := ""
  rootId : Option String := none
  orderKey : Option String := none
  name : Option String := none
  contentType : Option String := none
  description : Option String := none
  /-- The router's mint. -/
  minted : Option Doc := none
  /-- What this process mints where the router did not; `none` is a mint that failed. -/
  made : Option Doc := none
  /-- What the owner's grant is named by. -/
  grant : Particulars

structure IdentityWrite where
  context : Option Val := none
  content : Option String := none
  contentType : Option String := none
  name : Option String := none
  description : Option String := none
  minted : Option Doc := none
  made : Option Doc := none
  grant : Particulars

def IdentityWrite.creation (w : IdentityWrite) (rootId : String) : Creation where
  context := w.context.getD (.str "")
  content := w.content.getD ""
  rootId := some rootId
  name := w.name
  contentType := w.contentType
  minted := w.minted
  made := w.made
  grant := w.grant

/-! ### Bindings of a workspace -/

section Bindings

variable (float : String → Flt)

/-- `get_workspace_context`, of a workspace's context. -/
def workspaceContext (v : Val) : Except PyErr Doc :=
  let raw := match v with
    | .dict items => docOfItems items
    | v => loadedContext float v
  (withClientKeysText raw (clientView raw)).map fun t =>
    let ctx := parseContext float t
    if (ctx.find? "collections").isSome then ctx else ctx.set "collections" (.list [])

/-- `_resolve_binding_multi_from`, of the bindings of a context. -/
def boundIds (ctx : Doc) (role : String) : List String :=
  match (clientView ctx).get "bindings" with
  | .dict bindings =>
    match (docOfItems bindings).get role with
    | .dict entry =>
      match (docOfItems entry).get "artifact_ids" with
      | .list ids => ids.filterMap fun v => v.asStr.filter (· ≠ "")
      | _ => []
    | _ => []
  | _ => []

end Bindings

def everyFlag : Action → Bool := fun _ => true

def upsertUserCollectionGrant (now : Val → Bool) (p : Particulars) (userId resourceId : String)
    (flags : Action → Bool) : ServiceM PUnit := do
  let n ← get
  let held ← ofAccess ((resourceGrantDocs now n.db userId resourceId).mapM GrantAttrs.fromDict)
  match held.find? fun g => (g "grantee_type").eqStr "user" with
  | some g =>
    if Action.all.all fun a => (g a.flag).pyEq (.bool (flags a)) then pure ⟨⟩
    else do
      let _ ← stored (putGrant (g.setFlags flags))
      pure ⟨⟩
  | none => do
    let _ ← stored (putGrant (GrantAttrs.build (p.doc ++ flagDoc flags ++
      [("resource_id", .str resourceId), ("grantee_type", .str "user"), ("grantee_id", .str userId),
       ("granted_by", .str userId)])))
    pure ⟨⟩

namespace Caller

variable (K : Caller)

/-- `get_workspace`. -/
def workspace (workspaceId : String) (required : Action) : ServiceM Artifact := do
  let n ← get
  let entity ← ofPy (K.serving.entity (docOf n.db workspaceId))
  match entity with
  | none => http 404 "Workspace not found"
  | some ws => do
    let _ ← ofAccess (getWorkspace K.now n.db K.userId workspaceId required)
    pure ws

/-! ### `create_workspace_artifact` -/

/-- The first version of a lineage is its root; a later one has an id of its own. -/
def newId (db : Store) (rootId : Option String) : String :=
  match rootId with
  | some r => if r ≠ "" ∧ docOf db r = none then r else K.serving.clock.uuid
  | none => K.serving.clock.uuid

/-- The context a create stores: the router's mint, else the writer's keys with this process's own. -/
def createdContext (c : Creation) : Except PyErr Val :=
  match c.minted with
  | some ctx => (ctx.dumps .plain).map .str
  | none => mintMemberContext K.serving.float c.context c.made

/-- The content is stored under its address, which the context names; an empty one has none. -/
def createdContent (workspaceId id : String) (context : Val) (content : String) :
    Except PyErr (Val × Option String) :=
  if content = "" then .ok (context, none)
  else do
    let at_ ← K.serving.storeContent id content context (.str K.userId) (.str workspaceId) (.str K.userId)
    let ctx ← recordContentAddress K.serving.float context at_.1 at_.2
    .ok (ctx, at_.2)

/-- The entity a create builds. -/
def newMember (workspaceId id : String) (c : Creation) (context : Val) (ref : Option String) : Artifact where
  id := .str id
  rootId := (optStr c.rootId).orElse (.str id)
  collectionId := .str workspaceId
  context := context
  content := .str c.content
  state := stateLive
  createdBy := .str K.userId
  createdTime := .str K.serving.clock.now
  modifiedBy := .str K.userId
  modifiedTime := .str K.serving.clock.now
  originRoot := if workspaceId = "" then .str id else .none
  contentRef := optStr ref
  contentEncrypted := false
  name := optStr c.name
  description := optStr c.description
  contentType := optStr c.contentType
  lemmas := .none
  colimitOf := .none
  trashedBy := .none
  trashedTime := .none
  trashedFrom := .none
  parentId := .none

/-- The edge of a new member: at the end of its container where no key is given. -/
def placeMember (workspaceId rootId : String) (orderKey : Option String) : ServiceM PUnit := do
  let n ← get
  let last ← ofAccess (match orderKey with
    | some _ => .ok none
    | none => getLastOrderKey n.db workspaceId)
  let _ ← stored (addArtifactToCollection workspaceId rootId (orderKey.getD (afterKey last)) true)
  pure ⟨⟩

/-- `_link_to_target_collections`. -/
def linkMember (workspaceId rootId : String) : ServiceM PUnit := do
  let ws ← K.workspace workspaceId .read
  let ctx ← ofPy (workspaceContext K.serving.float ws.context)
  let n ← get
  let n' ← ofAccess (linkToTargetCollections K.now n K.userId workspaceId rootId (boundIds ctx "target_collections"))
  set n'

def grantOwner (rootId : String) (p : Particulars) : ServiceM PUnit :=
  tryCatch (upsertUserCollectionGrant K.now p K.userId rootId everyFlag) fun _ => pure ⟨⟩

def createWorkspaceArtifact (workspaceId : String) (c : Creation) : ServiceM Artifact := do
  let _ ← K.workspace workspaceId .create
  let n ← get
  let context ← ofPy (K.createdContext c)
  let placed ← ofPy (K.createdContent workspaceId (K.newId n.db c.rootId) context c.content)
  let a ← K.serving.createEntity (K.newMember workspaceId (K.newId n.db c.rootId) c placed.1 placed.2)
  placeMember workspaceId a.rootId.pyStr c.orderKey
  K.linkMember workspaceId a.rootId.pyStr
  K.grantOwner a.rootId.pyStr c.grant
  pure a

/-! ### `upsert_identity_member` -/

/-- The context an identity write leaves: the writer's keys over the stored ones, and the type it names. -/
def overwrittenContext (w : IdentityWrite) (target : Artifact) : Except PyErr Val := do
  let ctx ← (w.context.map (mergeUpdate K.serving.float target.context)).getD (.ok target.context)
  (w.contentType.map (withContentType K.serving.float ctx)).getD (.ok ctx)

def overwrittenContent (w : IdentityWrite) (target : Artifact) : Except PyErr Artifact :=
  match w.content with
  | some c => if target.content.eqStr c then .ok target else K.serving.replaceContent target c
  | none => .ok target

/-- The live version as an identity write leaves it: what is supplied overwrites. -/
def overwritten (w : IdentityWrite) (target : Artifact) : Except PyErr Artifact := do
  let ctx ← K.overwrittenContext w target
  let a ← K.overwrittenContent w { target with context := ctx }
  .ok { a with
    contentType := (w.contentType.map .str).getD a.contentType
    name := (w.name.map .str).getD a.name
    description := (w.description.map .str).getD a.description }

def upsertIdentityMember (workspaceId rootId : String) (w : IdentityWrite) : ServiceM Artifact := do
  let _ ← K.workspace workspaceId .create
  let n ← get
  let target ← ofPy (K.serving.entity (latestLive n.db rootId (some workspaceId)))
  match target with
  | none => do
    let created ← K.createWorkspaceArtifact workspaceId (w.creation rootId)
    let a := K.stamped { created with description := (w.description.map .str).getD created.description }
    K.serving.updateEntity a
    pure a
  | some target => do
    let a ← ofPy (K.overwritten w target)
    K.serving.updateEntity (K.stamped a)
    pure (K.stamped a)

/-! ### `update_workspace` -/

/-- A top-level artifact's new content: stored with its address, an empty one too. -/
def replaceBody (ws : Artifact) (content : String) : Except PyErr Artifact := do
  let at_ ← K.serving.storeContent ws.id.pyStr content (ws.context.orElse (.str ""))
    (ws.createdBy.orElse (.str K.userId)) (ws.collectionId.orElse ws.id) .none
  let ctx ← recordContentAddress K.serving.float (ws.context.orElse (.str "")) at_.1 at_.2
  let ctx ← readdressed K.serving.float K.serving.sha256 ctx content
  .ok { ws with content := .str content, contentRef := optStr at_.2, context := ctx }

/-- The fields and the content of a top-level edit, and whether anything moved. -/
def editedWorkspace (e : Edit) (ws : Artifact) : Except PyErr (Artifact × Bool) := do
  let a ← e.fields K.serving.float none ws
  match e.content with
  | some c => if a.1.content.eqStr c then .ok a else (K.replaceBody a.1 c).map fun b => (b, true)
  | none => .ok a

/-- The context a top-level edit goes on to write: a client's merged over what is stored by then. -/
def workspaceUpdate (e : Edit) (ws : Artifact) : Except PyErr (Option Val) := do
  let context ← (e.callerContext.map fun c => (mergeUpdate K.serving.float ws.context c).map some).getD
    (.ok e.context)
  match context, e.contentType with
  | some c, some t => (withContentType K.serving.float c t).map some
  | context, _ => .ok context

def updateWorkspaceContext (workspaceId : String) (context : Val) : ServiceM PUnit := do
  let ws ← K.workspace workspaceId .update
  let given : Doc := match context with
    | .dict items => docOfItems items
    | _ => []
  let ctx : Doc := if (given.find? "collections").isSome then given else given.set "collections" (.list [])
  let text ← ofPy (withClientKeysText ctx ctx)
  K.serving.updateEntity { ws with context := text, modifiedTime := .str K.serving.clock.now }

def givenContext : Val → Val
  | .str s => .dict (loadedContext K.serving.float (.str s)).toItems
  | v => v

/-- The edit of a live top-level artifact.  The context is written once the new content is stored. -/
def editWorkspace (after : Serving) (workspaceId : String) (e : Edit) (ws : Artifact) : ServiceM Artifact := do
  let a ← ofPy (K.editedWorkspace e ws)
  if a.2 || e.vector then
    K.serving.updateEntity { a.1 with modifiedTime := .str K.serving.clock.now }
  let context ← ofPy (K.workspaceUpdate e a.1)
  match context with
  | none =>
    pure (if a.2 || e.vector then { a.1 with modifiedTime := .str K.serving.clock.now } else a.1)
  | some c => do
    ({ K with serving := after } : Caller).updateWorkspaceContext workspaceId (K.givenContext c)
    ({ K with serving := after } : Caller).workspace workspaceId .update

def updateWorkspace (after : Serving) (workspaceId : String) (e : Edit) : ServiceM Artifact := do
  let ws ← K.workspace workspaceId .update
  if e.state = some stateArchived ∧ ws.state ≠ stateArchived then do
    refuseCombined e
    K.archiveEntity ws
  else if ws.state = stateArchived then
    if (e.state.getD "") ≠ "" ∧ e.state ≠ some stateArchived then do
      refuseCombined e
      K.restoreEntity ws
    else http 409 "Cannot edit an archived artifact"
  else K.editWorkspace after workspaceId e ws

end Caller

end Mantle
