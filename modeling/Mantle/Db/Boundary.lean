import Mantle.Py.Doc
import Mantle.Db.Vertex

/-!
# Mantle.Db.Boundary — artifacts as they cross into the store (`db/doc_boundary.py`)

An artifact entity becomes a document, whose sealable fields and body are encrypted on the way in and opened on the way
out.
-/

namespace Mantle

/-- Why a blob was not opened: the key is not issued to this reader, or anything else. -/
inductive Refusal
  | keyCustodyDenied
  | failed
deriving DecidableEq, Repr

/-- The ciphers, as the key oracle serves one reader.  `none` is an exception. -/
structure Crypto where
  /-- `decrypt_content` of a blob: of an artifact, for a principal, in a scope. -/
  openBlob : Val → Val → Val → Val → Except Refusal String
  /-- `encrypt_content` of a text: for a principal, in a scope, by a creator. -/
  sealText : Val → Val → Val → String → Option String
  /-- `get_bytes_decrypted`: a content key, a principal, an address, a scope. -/
  hydrate : Val → Val → Val → Val → Option String

/-! ### Contexts -/

def readableContextTypes : List String :=
  ["application/vnd.agience.issuer+json", "application/vnd.agience.type+json",
   "application/vnd.agience.anchor+json", "application/vnd.agience.crosswalk+json",
   "application/vnd.agience.subscription+json"]

def structuralContextKeys : List String :=
  ["content_type", "content_key", "content_cas_ref", "stream", "inbound", "upload", "processing",
   "storage"]

/-- `_content_type_of`.  The Kelvin sign is the one letter outside ASCII with an ASCII lower case. -/
def contentTypeOf (doc ctx : Doc) : String :=
  let s := (((ctx.get "content_type").orElse (doc.get "content_type")).orElse (.str "")).pyStr
  normText (String.ofList ((s.toList.takeWhile (· ≠ ';')).map fun c =>
    if c = Char.ofNat 0x212A then 'k' else c))

def sealableKeys (doc ctx : Doc) : List String :=
  if contentTypeOf doc ctx ∈ readableContextTypes then
    ["title"].filter fun k => (ctx.find? k).isSome
  else (ctx.map Prod.fst).filter fun k => k ∉ structuralContextKeys && k ≠ "sealed"

def sealableDocFields (doc ctx : Doc) : List String :=
  if contentTypeOf doc ctx ∈ readableContextTypes then []
  else ["name", "description"].filter fun k => (doc.get k).truthy

section Boundary

variable (float : String → Flt) (C : Crypto)

/-- `_context_dict`: the context as a dictionary, and whether it was stored as a text; `none` where it
is no dictionary. -/
def contextDict (doc : Doc) : Option Doc × Bool :=
  match doc.get "context" with
  | .dict items => (some (docOfItems items), false)
  | .str s =>
    if s = "" then (some [], true)
    else
      match Json.loads float s with
      | some (.dict items) => (some (docOfItems items), true)
      | _ => (none, true)
  | v => if v.truthy then (none, true) else (some [], false)

def putContext (doc ctx : Doc) (asString : Bool) : Except PyErr Doc :=
  if asString then (ctx.dumps .plain).map fun t => doc.set "context" (.str t)
  else .ok (doc.set "context" (.dict ctx.toItems))

def contentKeyPrincipal (doc : Doc) : Except PyErr Val :=
  let root := (doc.get "origin_root").orElse (doc.get "content_key_principal")
  if root.truthy then .ok root
  else if (doc.get "created_by").truthy then .ok (doc.get "created_by")
  else .error (.runtimeError "no content key principal")

def contentKeyScope (doc : Doc) : Val :=
  if (doc.get "collection_id").truthy then doc.get "collection_id"
  else
    let root := (doc.get "origin_root").orElse (doc.get "content_key_principal")
    if root.truthy && root.repr == (doc.get "id").repr then root else .str ""

def dictOr (v : Val) : Except PyErr Doc :=
  match v.orElse (.dict []) with
  | .dict items => .ok (docOfItems items)
  | _ => .error (.attributeError "object has no attribute 'items'")

/-- What a sealed payload holds: the context's fields and the document's; `none` is no JSON. -/
def openedPayload (plain : String) : Option (Val × Val) :=
  match Json.loads float plain with
  | none => none
  | some (.dict items) =>
    let d := docOfItems items
    if (d.get "v").eqInt 2 then
      some ((d.get "context").orElse (.dict []), (d.get "doc").orElse (.dict []))
    else some (.dict items, .dict [])
  | some _ => some (.dict [], .dict [])

def openSealed (doc : Doc) (sealed : Doc) : Option (Val × Val) :=
  match if (sealed.get "p").truthy then .ok (sealed.get "p") else contentKeyPrincipal doc with
  | .error _ => none
  | .ok principal =>
    (C.openBlob ((doc.get "root_id").orElse (doc.get "id")) principal (contentKeyScope doc)
      (sealed.get "blob")).toOption.bind (openedPayload float)

/-- `_open` of what a context holds under `sealed`; a value that is no dictionary is not opened. -/
def openField (doc : Doc) (v : Val) : Option (Val × Val) :=
  match v with
  | .dict items => openSealed float C doc (docOfItems items)
  | _ => none

/-- `ctx.setdefault` for every field. -/
def setDefaults (ctx fields : Doc) : Doc :=
  fields.foldl (fun c e => if (c.find? e.1).isSome then c else c.set e.1 e.2) ctx

/-- The opened fields of the document, where it has none of its own. -/
def restoreFields (raw top : Doc) : Doc :=
  top.foldl (fun d e => if (d.get e.1).truthy then d else d.set e.1 e.2) raw

def unsealContentFields (raw : Doc) : Except PyErr Doc :=
  match contextDict float raw with
  | (some ctx, asString) =>
    if (ctx.find? "sealed").isNone then .ok raw
    else
      match openField float C raw ((ctx.get "sealed").orElse (.dict [])) with
      | none => .ok raw
      | some (fields, top) => do
        let fields ← dictOr fields
        let top ← dictOr top
        putContext (restoreFields raw top) (setDefaults (ctx.without (· = "sealed")) fields) asString
  | (none, _) => .ok raw

def decryptError (raw : Doc) : PyErr :=
  .runtimeError ("artifact " ++ ((raw.get "_key").orElse (raw.get "id")).pyStr ++ " content could not be decrypted")

def hydrateError (raw : Doc) : PyErr :=
  .runtimeError ("artifact content is addressed at " ++ (raw.get "content_ref").pyStr ++ " but could not be read")

def custodyError : PyErr := .runtimeError "no key is issued to this reader"

def bodyPrincipals (raw : Doc) : List Val :=
  ([raw.get "content_key_principal", contentKeyScope raw, raw.get "created_by"].filter
    Val.truthy).foldl (fun acc v => if acc.any fun w => w.repr == v.repr then acc else acc ++ [v]) []

/-- The context's `content_key`, for the address of a body. -/
def contentKeyOf (raw : Doc) : Val :=
  match raw.get "context" with
  | .dict items => (docOfItems items).get "content_key"
  | .str s =>
    match Json.loads float s with
    | some (.dict items) => (docOfItems items).get "content_key"
    | _ => .none
  | _ => .none

def decryptBody (strict : Bool) (raw : Doc) : Except PyErr Doc :=
  if (raw.get "content_ref").truthy && !(raw.get "content").truthy then
    let ps := bodyPrincipals raw
    if ps.isEmpty then .ok raw
    else
      match ps.findSome? fun p => C.hydrate ((contentKeyOf float raw).orElse (.str "")) p
        (raw.get "content_ref") (contentKeyScope raw) with
      | some text => .ok (raw.set "content" (.str text))
      | none => if strict then .error (hydrateError raw) else .ok (raw.set "content" (.str ""))
  else if (raw.get "content_encrypted").truthy then
    match C.openBlob ((raw.get "root_id").orElse (raw.get "id"))
      ((raw.get "content_key_principal").orElse (raw.get "created_by")) (contentKeyScope raw)
      (raw.get "content") with
    | .ok text => .ok ((raw.set "content" (.str text)).set "content_encrypted" (.bool false))
    | .error .keyCustodyDenied => .error custodyError
    | .error .failed =>
      if strict then .error (decryptError raw)
      else .ok ((raw.set "content" .none).set "content_encrypted" (.bool true))
  else .ok raw

def decryptArtifactContent (strict : Bool) (raw : Doc) : Except PyErr Doc :=
  (unsealContentFields float C raw).bind (decryptBody float C strict)

def encryptError : PyErr :=
  .runtimeError "content encryption unavailable; refusing to persist plaintext"

def mergedSeal (doc ctx fields top : Doc) : Except PyErr (Doc × Doc) :=
  if (ctx.get "sealed").truthy then
    match openField float C doc (ctx.get "sealed") with
    | none => .error (.runtimeError
        "this row's sealed fields cannot be opened by this writer; refusing to overwrite them")
    | some (f, t) => do
      let f ← dictOr f
      let t ← dictOr t
      pure (f.update fields, t.update top)
  else .ok (fields, top)

def sealContentFields (doc : Doc) : Except PyErr Doc :=
  match contextDict float doc with
  | (none, _) => .ok doc
  | (some ctx, asString) =>
    let keys := sealableKeys doc ctx
    let tops := sealableDocFields doc (ctx.without (· ∈ keys))
    if keys.isEmpty && tops.isEmpty then .ok doc
    else do
      let ctx' := ctx.without (· ∈ keys)
      let doc' := doc.without (· ∈ tops)
      let merged ← mergedSeal float C doc' ctx' (keys.map fun k => (k, ctx.get k))
        (tops.map fun k => (k, doc.get k))
      let principal ← contentKeyPrincipal doc'
      let payload ← Doc.dumps .plain [("v", .int 2), ("context", .dict merged.1.toItems),
        ("doc", .dict merged.2.toItems)]
      match C.sealText principal (contentKeyScope doc') (doc'.get "created_by") payload with
      | none => .error encryptError
      | some blob =>
        putContext doc' (ctx'.set "sealed" (.dict [(.str "p", principal), (.str "blob", .str blob)]))
          asString

def encryptBody (doc : Doc) : Except PyErr Doc :=
  if (doc.get "content_ref").truthy then
    .ok ((doc.set "content" (.str "")).set "content_encrypted" (.bool false))
  else if !(doc.get "content").truthy || (doc.get "content_encrypted").truthy then .ok doc
  else do
    let principal ← contentKeyPrincipal doc
    match C.sealText principal (contentKeyScope doc) (doc.get "created_by") (doc.get "content").pyStr with
    | none => .error encryptError
    | some blob =>
      .ok (((doc.set "content" (.str blob)).set "content_encrypted" (.bool true)).set
        "content_key_principal" principal)

def encryptArtifactContent (doc : Doc) : Except PyErr Doc :=
  (sealContentFields float C doc).bind (encryptBody C)

end Boundary

/-! ### Entities -/

/-- What the process supplies: an id of its own and a clock reading. -/
structure Fresh where
  uuid : String
  now : String

structure Artifact where
  id : Val
  rootId : Val
  collectionId : Val
  context : Val
  content : Val
  state : String
  createdBy : Val
  createdTime : Val
  modifiedBy : Val
  modifiedTime : Val
  originRoot : Val
  contentRef : Val
  contentEncrypted : Bool
  name : Val
  description : Val
  contentType : Val
  lemmas : Val
  colimitOf : Val
  trashedBy : Val
  trashedTime : Val
  trashedFrom : Val
  parentId : Val

namespace Artifact

/-- `Artifact.from_dict`, with the defaults of the constructor. -/
def ofDict (fresh : Fresh) (d : Doc) : Except PyErr Artifact :=
  let id := ((d.get "id").orElse (d.get "_key")).orElse (.str fresh.uuid)
  let collection := (d.find? "collection_id").getD (.str "")
  let created := (d.get "created_time").orElse (.str fresh.now)
  if stateOf d ∉ [stateLive, stateArchived] then
    .error (.valueError ("Invalid state '" ++ stateOf d ++ "'"))
  else
    .ok { id := id, rootId := (d.get "root_id").orElse id, collectionId := collection,
          context := (d.find? "context").getD (.str ""), content := (d.find? "content").getD (.str ""),
          state := stateOf d, createdBy := d.get "created_by", createdTime := created,
          modifiedBy := d.get "modified_by", modifiedTime := (d.get "modified_time").orElse created,
          originRoot := (d.get "origin_root").orElse (if collection.truthy then .none else id),
          contentRef := d.get "content_ref", contentEncrypted := (d.get "content_encrypted").truthy,
          name := (d.get "name").orElse (d.get "title"), description := d.get "description",
          contentType := d.get "content_type", lemmas := d.get "lemmas",
          colimitOf := d.get "colimit_of", trashedBy := d.get "trashed_by",
          trashedTime := d.get "trashed_time", trashedFrom := d.get "trashed_from",
          parentId := d.get "parent_id" }

end Artifact

def pyList : Val → Except PyErr Val
  | .list xs => .ok (.list xs)
  | .tuple xs => .ok (.list xs)
  | .str s => .ok (.list (s.toList.map fun c => .str c.toString))
  | .dict items => .ok (.list (items.map fun e => .str e.1.pyStr))
  | _ => .error (.typeError "object is not iterable")

def listedField (k : String) (v : Val) : Except PyErr Doc :=
  if v.isNone then .ok [] else (pyList v).map fun l => [(k, l)]

def Artifact.toDict (a : Artifact) : Except PyErr Doc := do
  let lemmas ← listedField "lemmas" a.lemmas
  let colimit ← listedField "colimit_of" a.colimitOf
  let d : Doc :=
    [("id", a.id), ("root_id", a.rootId), ("collection_id", a.collectionId), ("context", a.context),
     ("content", a.content), ("state", .str a.state), ("created_by", a.createdBy),
     ("created_time", a.createdTime), ("modified_by", a.modifiedBy),
     ("modified_time", a.modifiedTime), ("origin_root", a.originRoot), ("content_ref", a.contentRef),
     ("name", a.name), ("description", a.description), ("content_type", a.contentType)] ++
    (if a.contentEncrypted then [("content_encrypted", .bool true)] else []) ++ lemmas ++ colimit ++
    (if a.trashedBy.isNone then []
     else [("trashed_by", a.trashedBy), ("trashed_time", a.trashedTime),
           ("trashed_from", a.trashedFrom)]) ++
    [("parent_id", a.parentId)]
  pure (d.filter fun e => !e.2.isNone)

mutual

def stripNones : Val → Val
  | .dict items => .dict (stripItems items)
  | .list xs => .list (stripList xs)
  | v => v

def stripList : List Val → List Val
  | [] => []
  | .none :: xs => stripList xs
  | v :: xs => stripNones v :: stripList xs

def stripItems : List (Key × Val) → List (Key × Val)
  | [] => []
  | (_, .none) :: rest => stripItems rest
  | (k, v) :: rest => (k, stripNones v) :: stripItems rest

end

/-- `to_lattice_doc` of an artifact. -/
def toLatticeDoc (float : String → Flt) (C : Crypto) (a : Artifact) : Except PyErr Doc := do
  let d ← a.toDict
  let d : Doc := docOfItems (stripItems d.toItems)
  encryptArtifactContent float C (d.set "_type" (.str "Artifact"))

def latticeInternal : List String := ["_origin", "_seq", "_rev", "_fp", "_type"]

/-- `from_lattice_doc` of a document that is there. -/
def fromLatticeDoc (float : String → Flt) (C : Crypto) (fresh : Fresh) (raw : Doc) :
    Except PyErr Artifact :=
  (decryptArtifactContent float C true (raw.without (· ∈ latticeInternal))).bind (Artifact.ofDict fresh)

end Mantle
