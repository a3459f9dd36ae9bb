import Mantle.Access.Graph

/-!
# Mantle.Access.Grants — the grant ledger

A grant is a row of one content type.  Whether an expiry lies ahead is a parameter (`now`), so that one moment can be
spoken about.
-/

namespace Mantle

/-! ### Grants -/

def grantContentType : String := "application/vnd.agience.grant+json"

structure Grant where
  resourceId : Val
  effect : String
  flag : Action → Bool

namespace Grant

/-- `Grant.from_dict`.  An absent `can_read` is granted, any other absent flag is not. -/
def ofDoc (d : Doc) : Except AccessErr Grant := do
  let effect ← match (d.find? "effect").getD (.str "allow") with
    | .str s => .ok (normText s)
    | v => if v.truthy then .error .attributeError else .ok ""
  pure
    { resourceId := (d.find? "resource_id").getD (.str "")
      effect := if effect = "" then "allow" else effect
      flag := fun a => ((d.find? a.flag).getD (.bool (a = .read))).truthy }

/-- `grant_is_deny`. -/
def isDeny (g : Grant) : Bool := g.effect = "deny"

/-- `grant_is_allow`. -/
def isAllow (g : Grant) : Bool := g.effect = "allow"

def mask (g : Grant) : Mask := ⟨g.flag, g.isAllow⟩

def resource (g : Grant) : Option String :=
  match g.resourceId with
  | .str s => if s = "" then none else some s
  | _ => none

end Grant

/-- `_doc_mask`: a raw document's authority, nothing defaulted. -/
def docMask (d : Doc) : Mask :=
  ⟨fun a => (d.get a.flag).truthy,
   normText (((d.get "effect").orElse (.str "")).pyStr) = "allow"⟩

/-! ### Finding grants -/

def sortedVertices (db : Store) : List (String × VRow) :=
  db.vertex.toPairs.insertionSort fun a b => a.1 ≤ b.1

/-- `_grant_docs_by("grantee_id", value)`.  The seek and the scan it falls back to return the same
documents in the same order. -/
def grantDocsBy (db : Store) (grantee : String) : List Doc :=
  if grantee = "" then []
  else
    ((sortedVertices db).filter fun e =>
      e.2.ct.eqStr grantContentType && (e.2.doc.val.get "grantee_id").eqStr grantee).map
      fun e => e.2.doc.val

section Clock

variable (now : Val → Bool) (db : Store)

def unexpired (d : Doc) : Bool := !(d.get "expires_at").truthy || now (d.get "expires_at")

/-- Active and not expired. -/
def inForce (d : Doc) : Bool := (d.get "state").eqStr "active" && unexpired now d

def userGrantDocs (p : String) : List Doc :=
  (grantDocsBy db p).filter fun d => inForce now d && (d.get "grantee_type").eqStr "user"

def resourceGrantDocs (p rid : String) : List Doc :=
  (grantDocsBy db p).filter fun d => inForce now d && (d.get "resource_id").eqStr rid

/-- `get_active_grants_for_grantee(..., "user")`. -/
def getActiveGrantsForGrantee (p : String) : Except AccessErr (List Grant) :=
  (userGrantDocs now db p).mapM Grant.ofDoc

def getActiveGrantsForPrincipalResource (p rid : String) : Except AccessErr (List Grant) :=
  (resourceGrantDocs now db p rid).mapM Grant.ofDoc

/-- `get_active_collection_ids_for_user`: what a user may read, direct denies taken out. -/
def getActiveCollectionIdsForUser (p : String) : List String :=
  let masked := (userGrantDocs now db p).filterMap fun d =>
    if (d.get "resource_id").truthy then some ((d.get "resource_id").pyStr, docMask d) else none
  let denied := (masked.filter fun e => e.2.isDeny && e.2.carries .read).map Prod.fst
  (masked.filter fun e => e.2.allows .read && e.1 ∉ denied).map Prod.fst

end Clock

end Mantle
