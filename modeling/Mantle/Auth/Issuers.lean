import Mantle.Access.Gate
import Mantle.Auth.Oidc
import Mantle.Db.Cycle
import Mantle.Db.Documented

/-!
# Mantle.Auth.Issuers — trusted issuers as artifacts (`services/issuers.py`)

The verifier's configurations are read from the live issuer artifacts whose `created_by` is the platform's system
principal.
-/

namespace Mantle

variable {a : Artifact} {clock : Fresh} {d u : Doc} {ks : List String}

def issuerContentType : String := "application/vnd.agience.issuer+json"

def passthrough : List String := ["audience", "jwks", "jwks_uri", "namespace", "role"]

/-- Who reads and writes issuer artifacts: the platform's system principal, what it can open, the clock, and how a float
is read. -/
structure Platform where
  systemId : String
  float : String → Flt
  ciphers : Crypto
  clock : Fresh

/-! ### Loading -/

/-- The context's `content_type`, of a stored context; a text that is no JSON has none. -/
def contextType (float : String → Flt) (context : Val) : Val :=
  match context with
  | .dict items => (docOfItems items).get "content_type"
  | .str s =>
    match Json.loads float s with
    | some (.dict items) => (docOfItems items).get "content_type"
    | _ => .none
  | _ => .none

/-- A row of `list_live_artifacts_by_context_content_type`, by its columns and its document. -/
def isListed (float : String → Flt) (contentType creator : String) (ct createdBy : Val) (doc : Doc) : Bool :=
  ct.eqStr contentType && createdBy.eqStr creator &&
    (liveStates stateLive).any (fun s => (doc.get "state").eqStr s) &&
    (contextType float (doc.get "context")).eqStr contentType

/-- The context of an artifact, for the loader; `none` where it is no dictionary. -/
def artifactContext (float : String → Flt) (context : Val) : Option Doc :=
  match context with
  | .dict items => some (docOfItems items)
  | .str s =>
    if s = "" then some []
    else
      match Json.loads float s with
      | some (.dict items) => some (docOfItems items)
      | _ => none
  | _ => none

def issuerConfig (ctx : Doc) : Option Doc :=
  if (ctx.get "issuer").truthy then
    some (("issuer", ctx.get "issuer") ::
      (passthrough.filter fun k => !(ctx.get k).isNone).map fun k => (k, ctx.get k))
  else none

namespace Platform

variable (P : Platform)

/-- `list_live_artifacts_by_context_content_type`. -/
def listLive (db : Store) (contentType creator : String) : Except PyErr (List Artifact) :=
  ((sortedVertices db).filter fun v =>
    isListed P.float contentType creator v.2.ct v.2.createdBy v.2.doc.val).mapM fun v =>
      fromLatticeDoc P.float P.ciphers P.clock v.2.doc.val

def configOf (a : Artifact) : Option Doc := (artifactContext P.float a.context).bind issuerConfig

def loadIssuerConfigs (db : Store) : List Doc :=
  if P.systemId = "" then []
  else
    match P.listLive db issuerContentType P.systemId with
    | .ok arts => arts.filterMap P.configOf
    | .error _ => []

def rowConfig (ct createdBy : Val) (doc : Doc) : Except PyErr (Option Doc) :=
  if isListed P.float issuerContentType P.systemId ct createdBy doc then
    (fromLatticeDoc P.float P.ciphers P.clock doc).map P.configOf
  else .ok none

def rowGives (r : VRow) : Except PyErr (Option Doc) := P.rowConfig r.ct r.createdBy r.doc.val

end Platform

/-! ### Creating, seeding and revoking -/

/-- A call of `create_issuer_artifact`, with the id and the clock reading the entity is made with. -/
structure IssuerCall where
  issuer : Val
  authorizedBy : Val
  jwks : Val
  jwksUri : Val
  audience : Val
  nameSpace : Val
  role : Val
  made : Fresh

namespace IssuerCall

def context (c : IssuerCall) : Doc :=
  [("content_type", .str issuerContentType), ("issuer", c.issuer), ("role", c.role),
   ("authorized_by", c.authorizedBy)] ++
  [("audience", c.audience), ("jwks", c.jwks), ("jwks_uri", c.jwksUri),
   ("namespace", c.nameSpace)].filter fun e => !e.2.isNone

/-- What is refused before anything is written. -/
def check (c : IssuerCall) (systemId : String) : Except PyErr PUnit :=
  if !c.issuer.truthy then .error (.valueError "issuer is required")
  else if !c.jwks.truthy && !c.jwksUri.truthy then .error (.valueError "jwks or jwks_uri is required")
  else if !(c.role.eqStr "external" || c.role.eqStr "platform") then
    .error (.valueError "role must be 'external' or 'platform'")
  else if c.role.eqStr "external" && !c.audience.truthy then
    .error (.valueError "an external issuer must bind an 'audience'")
  else if systemId = "" then
    .error (.runtimeError "system principal unavailable — cannot own issuer artifact")
  else .ok ⟨⟩

/-- The entity: a live artifact of the system principal in no collection, its own origin root. -/
def entity (c : IssuerCall) (systemId context : String) : Artifact where
  id := .str c.made.uuid
  rootId := .str c.made.uuid
  collectionId := .str ""
  context := .str context
  content := .str ""
  state := stateLive
  createdBy := .str systemId
  createdTime := .str c.made.now
  modifiedBy := .str systemId
  modifiedTime := .str c.made.now
  originRoot := .str c.made.uuid
  contentRef := .none
  contentEncrypted := false
  name := c.issuer
  description := .none
  contentType := .str issuerContentType
  lemmas := .none
  colimitOf := .none
  trashedBy := .none
  trashedTime := .none
  trashedFrom := .none
  parentId := .none

end IssuerCall

/-- `json.loads` of the context of an artifact to revoke; `none` where it has no `.get`. -/
def revokedContext (float : String → Flt) (context : Val) : Option Doc :=
  match context with
  | .dict items => some (docOfItems items)
  | .str s =>
    match Json.loads float s with
    | some (.dict items) => some (docOfItems items)
    | some _ => none
    | none => some []
  | v => if v.truthy then none else some []

/-- What the environment and the manifest name, in the order they are seeded. -/
def desiredIssuers (E : TrustEnv) : List Doc :=
  (match E.anchors with
    | none => []
    | some anchors =>
      (anchors.filterMap fun a => (anchorJwks a.2).map fun jwks =>
        ([("issuer", .str a.1), ("jwks", jwks), ("role", .str "platform")] : Doc)) ++
      match originJwks anchors with
      | some jwks =>
        if E.authorityIssuer = "" then []
        else [[("issuer", .str E.authorityIssuer), ("jwks", jwks), ("role", .str "platform")]]
      | none => []) ++
  (E.trustedIssuers.filter fun d => (d.get "issuer").truthy).map fun d =>
    d.set "role" ((d.find? "role").getD (.str "external"))

def seedCall (d : Doc) (made : Fresh) : IssuerCall where
  issuer := d.get "issuer"
  authorizedBy := .str "bootstrap:manifest"
  jwks := d.get "jwks"
  jwksUri := d.get "jwks_uri"
  audience := d.get "audience"
  nameSpace := d.get "namespace"
  role := (d.find? "role").getD (.str "external")
  made := made

/-- The value can be kept in a set. -/
def hashable : Val → Bool
  | .list _ => false
  | .dict _ => false
  | _ => true

namespace Platform

variable (P : Platform)

def createIssuerArtifact (c : IssuerCall) : DbM Artifact := do
  Tx.ofExcept (c.check P.systemId)
  let context ← Tx.ofExcept (c.context.dumps .plain)
  let art := c.entity P.systemId context
  let doc ← Tx.ofExcept (toLatticeDoc P.float P.ciphers art)
  let _ ← putArtifact doc true false
  pure art

/-- `revoke_issuer_artifact`: whether it was an issuer artifact.  `contentChanged` is `_content_changed`. -/
def revokeIssuerArtifact (contentChanged : Option Doc → Doc → Bool) (id : String) (revoker : Val) :
    DbM Bool := do
  let n ← get
  match docOf n.db id with
  | none => pure false
  | some raw =>
    let art ← Tx.ofExcept (fromLatticeDoc P.float P.ciphers P.clock raw)
    match revokedContext P.float art.context with
    | none => throw (.attributeError "object has no attribute 'get'")
    | some ctx =>
      if !(ctx.get "content_type").eqStr issuerContentType then pure false
      else
        let doc ← Tx.ofExcept (toLatticeDoc P.float P.ciphers
          { art with state := stateArchived, modifiedBy := revoker })
        let _ ← updateArtifact contentChanged doc
        pure true

def existingIssuers (arts : List Artifact) : List Val :=
  arts.filterMap fun a => (artifactContext P.float a.context).bind fun ctx =>
    if (ctx.get "issuer").truthy then some (ctx.get "issuer") else none

def seedMissing (made : ℕ → Fresh) : List Doc → List Val → Node → Node
  | [], _, n => n
  | d :: ds, existing, n =>
    let iss := d.get "issuer"
    if !hashable iss then n
    else if existing.any fun v => pyEq v iss then seedMissing made ds existing n
    else
      match P.createIssuerArtifact (seedCall d (made ds.length)) n with
      | .ok _ n' => seedMissing made ds (iss :: existing) n'
      | .error _ n' => seedMissing made ds existing n'

def seedPlatformIssuerArtifacts (E : TrustEnv) (made : ℕ → Fresh) (n : Node) : Node :=
  if P.systemId = "" then n
  else
    match P.listLive n.db issuerContentType P.systemId with
    | .error _ => n
    | .ok arts =>
      if (P.existingIssuers arts).all hashable then
        P.seedMissing made (desiredIssuers E) (P.existingIssuers arts) n
      else n

end Platform

/-! ### What the loader does not read -/

/-- What a write stamps on a document, and the version it names: the loader reads none of it. -/
def unreadKeys : List String := ["_origin", "_seq", "created_time", timeClaimKey, "parent_id"]

abbrev ReadsAlike (d e : Doc) : Prop := SameOutside unreadKeys d e

section Alike

variable {float : String → Flt} {C : Crypto} {d e : Doc}

theorem SameOutside.symm (h : SameOutside ks d e) : SameOutside ks e d :=
  fun k hk => (h k hk).symm

theorem SameOutside.set (h : SameOutside ks d e) (k : String) (v : Val) :
    SameOutside ks (d.set k v) (e.set k v) := by
  intro x hx
  rw [Doc.find?_set, Doc.find?_set, h x hx]

theorem SameOutside.without (h : SameOutside ks d e) (p : String → Bool) :
    SameOutside ks (d.without p) (e.without p) := by
  intro x hx
  cases hp : p x with
  | true => rw [Doc.find?_without_of _ hp, Doc.find?_without_of _ hp]
  | false => rw [Doc.find?_without _ hp, Doc.find?_without _ hp, h x hx]

theorem SameOutside.norm (h : SameOutside ks d e) : SameOutside ks d.norm e.norm := by
  intro x hx
  rw [Doc.find?_norm, Doc.find?_norm, h x hx]

theorem ReadsAlike.keys (h : ReadsAlike d e) : SameKeys d e := by
  intro k hk
  refine h.get ?_
  intro hmem
  simp only [unreadKeys, timeClaimKey, List.mem_cons, List.not_mem_nil, or_false] at hmem
  rcases hmem with rfl | rfl | rfl | rfl | rfl <;> exact absurd hk (by decide)

theorem ReadsAlike.restoreFields : ∀ (top : Doc) {d e : Doc}, ReadsAlike d e →
    ReadsAlike (restoreFields d top) (restoreFields e top)
  | [], _, _, h => h
  | x :: top, d, e, h => by
    have hstep : ReadsAlike (if (d.get x.1).truthy then d else d.set x.1 x.2)
        (if (e.get x.1).truthy then e else e.set x.1 x.2) := by
      intro k hk
      by_cases hx : k = x.1
      · rw [← hx, h.get hk]
        split_ifs
        · exact h k hk
        · exact h.set _ _ k hk
      · have hset : ∀ f : Doc, (if (f.get x.1).truthy then f else f.set x.1 x.2).find? k = f.find? k := by
          intro f
          split_ifs
          · rfl
          · rw [Doc.find?_set, if_neg hx]
        rw [hset, hset, h k hk]
    exact ReadsAlike.restoreFields top hstep

theorem ReadsAlike.putContext (h : ReadsAlike d e) {ctx : Doc} {b : Bool} (hu : putContext d ctx b = .ok u) :
    ∃ u', putContext e ctx b = .ok u' ∧ ReadsAlike u u' := by
  unfold Mantle.putContext at hu ⊢
  split_ifs at hu ⊢
  · cases ht : ctx.dumps .plain with
    | error err =>
      rw [ht] at hu
      cases hu
    | ok t =>
      rw [ht] at hu
      cases hu
      exact ⟨_, rfl, h.set _ _⟩
  · cases hu
    exact ⟨_, rfl, h.set _ _⟩

theorem ReadsAlike.unseal (h : ReadsAlike d e) (hu : unsealContentFields float C d = .ok u) :
    ∃ u', unsealContentFields float C e = .ok u' ∧ ReadsAlike u u' := by
  have hctx : contextDict float e = contextDict float d := by
    unfold contextDict
    rw [h.get (by decide)]
  unfold unsealContentFields at hu ⊢
  rw [hctx]
  split at hu
  · split_ifs at hu ⊢
    · cases hu
      exact ⟨_, rfl, h⟩
    · rw [h.keys.openField]
      split at hu
      · cases hu
        exact ⟨_, rfl, h⟩
      · obtain ⟨f, hf, hu⟩ := Mantle.bind_ok hu
        obtain ⟨t, ht, hu⟩ := Mantle.bind_ok hu
        obtain ⟨u', hu', hsame⟩ := (ReadsAlike.restoreFields t h).putContext hu
        refine ⟨u', ?_, hsame⟩
        rw [hf, ht]
        exact hu'
  · cases hu
    exact ⟨_, rfl, h⟩

theorem ReadsAlike.decryptBody (h : ReadsAlike d e) (hu : decryptBody float C true d = .ok u) :
    ∃ u', decryptBody float C true e = .ok u' ∧ ReadsAlike u u' := by
  have hget : ∀ k ∉ unreadKeys, e.get k = d.get k := fun k hk => h.get hk
  have hkeys : bodyPrincipals e = bodyPrincipals d := h.keys.bodyPrincipals
  have hscope : contentKeyScope e = contentKeyScope d := h.keys.scope
  have hkey : contentKeyOf float e = contentKeyOf float d := by
    unfold contentKeyOf
    rw [hget "context" (by decide)]
  unfold Mantle.decryptBody at hu ⊢
  simp only [hkeys, hscope, hkey, hget "content_ref" (by decide), hget "content" (by decide),
    hget "content_encrypted" (by decide), hget "root_id" (by decide), hget "id" (by decide),
    hget "content_key_principal" (by decide), hget "created_by" (by decide)] at hu ⊢
  split_ifs at hu ⊢
  · cases hu
    exact ⟨_, rfl, h⟩
  · split at hu
    · cases hu
      exact ⟨_, rfl, h.set _ _⟩
    · cases hu
  · split at hu
    · cases hu
      exact ⟨_, rfl, (h.set _ _).set _ _⟩
    · cases hu
    · cases hu
  · cases hu
    exact ⟨_, rfl, h⟩

theorem ofDict_ok (h : Artifact.ofDict clock d = .ok a) :
    stateOf d ∈ [stateLive, stateArchived] ∧ a.context = (d.find? "context").getD (.str "") := by
  unfold Artifact.ofDict at h
  dsimp only at h
  by_cases hs : stateOf d ∈ [stateLive, stateArchived]
  · rw [if_neg (not_not.mpr hs)] at h
    cases h
    exact ⟨hs, rfl⟩
  · rw [if_pos hs] at h
    cases h

theorem ofDict_of_state (clock : Fresh) (h : stateOf d ∈ [stateLive, stateArchived]) :
    ∃ a, Artifact.ofDict clock d = .ok a := by
  unfold Artifact.ofDict
  dsimp only
  rw [if_neg (not_not.mpr h)]
  exact ⟨_, rfl⟩

theorem ReadsAlike.fromLatticeDoc (h : ReadsAlike d e) (ha : fromLatticeDoc float C clock d = .ok a) :
    ∃ a', fromLatticeDoc float C clock e = .ok a' ∧ a'.context = a.context := by
  unfold Mantle.fromLatticeDoc decryptArtifactContent at ha ⊢
  obtain ⟨r, hr, ha⟩ := Mantle.bind_ok ha
  obtain ⟨u, hu, hr⟩ := Mantle.bind_ok hr
  obtain ⟨u', hu', hsame⟩ := ReadsAlike.unseal (h.without _) hu
  obtain ⟨r', hr', hsame⟩ := hsame.decryptBody hr
  obtain ⟨hstate, hcontext⟩ := ofDict_ok ha
  have hstate' : stateOf r' ∈ [stateLive, stateArchived] := by
    unfold stateOf at hstate ⊢
    rw [hsame.get (by decide)]
    exact hstate
  obtain ⟨a', ha'⟩ := ofDict_of_state clock hstate'
  refine ⟨a', ?_, ?_⟩
  · rw [hu']
    change (Mantle.decryptBody float C true u').bind _ = _
    rw [hr']
    exact ha'
  · rw [(ofDict_ok ha').2, hcontext, hsame "context" (by decide)]

end Alike

/-! ### What a row gives -/

def column (v : Val) : Val :=
  match bindText v with
  | .ok c => c
  | .error _ => .none

theorem readsAlike_stampedDoc (d : Doc) (origin : String) (seq : Val) (prev : Option VRow) :
    ReadsAlike d (stampedDoc d origin seq prev) := by
  have hset : ∀ {k : String} (f : Doc) (v : Val), k ∈ unreadKeys → ReadsAlike f (f.set k v) := by
    intro k f v hk x hx
    rw [Doc.find?_set, if_neg (fun h : x = k => hx (h ▸ hk))]
  have htrans : ∀ {f g h : Doc}, ReadsAlike f g → ReadsAlike g h → ReadsAlike f h :=
    fun h h' k hk => (h' k hk).trans (h k hk)
  have hattr : ∀ f : Doc, ReadsAlike f (attributeTime f origin) := by
    intro f
    unfold attributeTime
    split_ifs
    · exact fun _ _ => rfl
    · exact fun _ _ => rfl
    · exact hset _ _ (by decide)
  have hkeep : ∀ f : Doc, ReadsAlike f (keepTime f prev) := by
    intro f
    unfold keepTime
    cases prev with
    | none => exact fun _ _ => rfl
    | some p =>
      dsimp only
      split_ifs
      · exact fun _ _ => rfl
      · exact hset _ _ (by decide)
      · exact htrans (hset _ _ (by decide)) (hset _ _ (by decide))
  unfold stampedDoc
  exact htrans (htrans (htrans (hset _ _ (by decide)) (hset _ _ (by decide))) (hattr _)) (hkeep _)

theorem vertexRow_createdBy {origin : String} {seq : ℤ} {leaf : ℕ} {row : VRow}
    (h : vertexRow d origin seq leaf = .ok row) : bindText (d.get "created_by") = .ok row.createdBy :=
  (vertexRow_binds h).2.2.1

namespace Platform

variable {d : Doc} {o : Option Doc}

variable {P : Platform} {db : Store} {c : Doc}

/-- What the loader makes of a document once it is stored. -/
def docGives (P : Platform) (d : Doc) : Except PyErr (Option Doc) :=
  P.rowConfig (column (d.get "content_type")) (column (d.get "created_by")) d.norm

theorem rowConfig_alike {ct createdBy : Val} {e : Doc} (h : ReadsAlike d e)
    (ho : P.rowConfig ct createdBy d = .ok o) : P.rowConfig ct createdBy e = .ok o := by
  have hlisted : isListed P.float issuerContentType P.systemId ct createdBy e =
      isListed P.float issuerContentType P.systemId ct createdBy d := by
    unfold isListed
    rw [h.get (k := "state") (by decide), h.get (k := "context") (by decide)]
  unfold rowConfig at ho ⊢
  rw [hlisted]
  split_ifs at ho ⊢
  · cases ha : Mantle.fromLatticeDoc P.float P.ciphers P.clock d with
    | error err =>
      rw [ha] at ho
      cases ho
    | ok a =>
      obtain ⟨a', ha', hcontext⟩ := h.fromLatticeDoc ha
      rw [ha] at ho
      rw [ha', ← ho]
      change Except.ok (P.configOf a') = Except.ok (P.configOf a)
      unfold configOf
      rw [hcontext]
  · exact ho

theorem docGives_alike {e : Doc} (h : ReadsAlike d e) :
    P.docGives d = .ok o ↔ P.docGives e = .ok o := by
  have hone : ∀ {d e : Doc}, ReadsAlike d e → P.docGives d = .ok o → P.docGives e = .ok o := by
    intro d e h ho
    unfold docGives at ho ⊢
    rw [h.get (k := "content_type") (by decide), h.get (k := "created_by") (by decide)]
    exact rowConfig_alike h.norm ho
  exact ⟨hone h, hone h.symm⟩

theorem rowGives_written {origin : String} {seq : Val} {s : ℤ} {leaf : ℕ} {prev : Option VRow} {row : VRow}
    (h : vertexRow (stampedDoc d origin seq prev) origin s leaf = .ok row) :
    P.rowGives (upsertVertex prev row) = .ok o ↔ P.docGives d = .ok o := by
  have hcols : (upsertVertex prev row).ct = row.ct ∧ (upsertVertex prev row).createdBy = row.createdBy := by
    cases prev <;> exact ⟨rfl, rfl⟩
  have hgives : P.rowGives (upsertVertex prev row) = P.docGives (stampedDoc d origin seq prev) := by
    unfold rowGives docGives column
    rw [hcols.1, hcols.2, (upsertVertex_fields prev row).2.2.2, (vertexRow_ok h).2.2.2, vertexRow_ct h,
      vertexRow_createdBy h]
  rw [hgives]
  exact (docGives_alike (readsAlike_stampedDoc d origin seq prev)).symm

def Readable (P : Platform) (db : Store) : Prop :=
  ∀ id r, db.vertex.lookup id = some r → ∃ o, P.rowGives r = .ok o

theorem rowGives_some {r : VRow} : P.rowGives r = .ok (some c) ↔
    isListed P.float issuerContentType P.systemId r.ct r.createdBy r.doc.val = true ∧
      ∃ a, fromLatticeDoc P.float P.ciphers P.clock r.doc.val = .ok a ∧ P.configOf a = some c := by
  unfold rowGives rowConfig
  split_ifs with hl
  · cases fromLatticeDoc P.float P.ciphers P.clock r.doc.val with
    | error e => exact ⟨fun h => (nomatch h), fun ⟨_, _, h, _⟩ => (nomatch h)⟩
    | ok a =>
      refine ⟨fun h => ⟨hl, a, rfl, Except.ok.inj h⟩, ?_⟩
      rintro ⟨-, a', ha, hc⟩
      cases ha
      exact congrArg Except.ok hc
  · exact ⟨fun h => (nomatch h), fun h => absurd h.1 hl⟩

theorem rowGives_readable {r : VRow} : (∃ o, P.rowGives r = .ok o) ↔
    (isListed P.float issuerContentType P.systemId r.ct r.createdBy r.doc.val = true →
      ∃ a, fromLatticeDoc P.float P.ciphers P.clock r.doc.val = .ok a) := by
  unfold rowGives rowConfig
  split_ifs with hl
  · cases fromLatticeDoc P.float P.ciphers P.clock r.doc.val with
    | error e => exact ⟨fun ⟨_, h⟩ => (nomatch h), fun h => (nomatch h hl)⟩
    | ok a => exact ⟨fun _ _ => ⟨a, rfl⟩, fun _ => ⟨_, rfl⟩⟩
  · exact ⟨fun _ h => absurd h hl, fun _ => ⟨_, rfl⟩⟩

theorem readable_iff : P.Readable db ↔ ∃ arts, P.listLive db issuerContentType P.systemId = .ok arts := by
  unfold listLive
  rw [mapM_isOk]
  unfold Readable
  simp only [rowGives_readable, List.mem_filter, Prod.forall, mem_sortedVertices, and_imp]

/-- **What is loaded.** -/
theorem mem_loadIssuerConfigs : c ∈ P.loadIssuerConfigs db ↔ P.systemId ≠ "" ∧ P.Readable db ∧
    ∃ id r, db.vertex.lookup id = some r ∧ P.rowGives r = .ok (some c) := by
  rw [readable_iff]
  unfold loadIssuerConfigs
  by_cases hsys : P.systemId = ""
  · simp [hsys]
  · rw [if_neg hsys]
    cases harts : P.listLive db issuerContentType P.systemId with
    | error err => simp
    | ok arts =>
      have hall := mapM_ok harts
      simp only [List.mem_filterMap, hall, List.mem_filter, Prod.exists, mem_sortedVertices, rowGives_some]
      constructor
      · rintro ⟨a, ⟨id, r, ⟨hr, hl⟩, ha⟩, hc⟩
        exact ⟨hsys, ⟨arts, rfl⟩, id, r, hr, hl, a, ha, hc⟩
      · rintro ⟨-, -, id, r, hr, hl, a, ha, hc⟩
        exact ⟨a, ⟨id, r, ⟨hr, hl⟩, ha⟩, hc⟩

end Platform

/-! ### What is written -/

section Written

variable {float : String → Flt} {C : Crypto}

theorem find?_plain_cons {k x : String} {v : Val} :
    (docOfItems (stripItems (Doc.toItems (((x, v) :: d).filter fun e => !e.2.isNone)))).find? k =
      if x = k ∧ v.isNone = false then some (stripNones v)
      else (docOfItems (stripItems (Doc.toItems (d.filter fun e => !e.2.isNone)))).find? k := by
  cases v <;> simp [Val.isNone, Doc.toItems, stripItems, docOfItems, Key.pyStr, Doc.find?]

theorem encrypt_find? {d' : Doc} (h : encryptArtifactContent float C d = .ok d') {k : String}
    (hk : k ∉ sealFields ++ bodyFields) : d'.find? k = d.find? k := by
  rw [List.mem_append, not_or] at hk
  obtain ⟨m, hm, h⟩ := Mantle.bind_ok h
  rw [(encryptBody_written h).others k hk.2]
  rcases sealContentFields_cases hm with ⟨-, rfl⟩ | ⟨_, _, -, -, -, rfl⟩ | ⟨ctx, b, f, t, p, blob, hs⟩
  · rfl
  · rfl
  · have hne : k ≠ "context" := by
      rintro rfl
      exact hk.1 (by decide)
    rw [putContext_find? hs.put hne, find?_clearDoc, if_neg]
    intro hmem
    unfold sealedFields at hmem
    rcases (mem_sealableDocFields hmem).1 with rfl | rfl
    · exact hk.1 (by decide)
    · exact hk.1 (by decide)

theorem toLatticeDoc_given (h : toLatticeDoc float C a = .ok d) :
    d.get "state" = .str a.state ∧ ∀ x, a.id = .str x → d.get "id" = .str x := by
  obtain ⟨f, hf, h⟩ := Mantle.bind_ok h
  obtain ⟨lemmas, -, hf⟩ := Mantle.bind_ok hf
  obtain ⟨colimit, -, hf⟩ := Mantle.bind_ok hf
  cases hf
  unfold Doc.get
  refine ⟨?_, fun x hx => ?_⟩
  all_goals
    rw [encrypt_find? h (by decide), Doc.find?_set, if_neg (by decide)]
    simp only [List.cons_append, find?_plain_cons]
  · simp [Val.isNone, stripNones]
  · simp [hx, Val.isNone, stripNones]

theorem toLatticeDoc_state (h : toLatticeDoc float C a = .ok d) : d.get "state" = .str a.state :=
  (toLatticeDoc_given h).1

theorem docGives_archived {P : Platform} (h : d.get "state" = .str stateArchived) :
    P.docGives d = .ok none := by
  unfold Platform.docGives Platform.rowConfig isListed
  rw [Doc.get_norm, h]
  have : (liveStates stateLive).any (fun s => ((Val.str stateArchived).norm).eqStr s) = false := by decide
  rw [this]
  simp

theorem fromLatticeDoc_bare {d ctx : Doc} {b : Bool} {clock : Fresh} (hctx : contextDict float d = (some ctx, b))
    (hsealed : ctx.find? "sealed" = none) (href : (d.get "content_ref").truthy = false)
    (henc : (d.get "content_encrypted").truthy = false) (hstate : stateOf d ∈ [stateLive, stateArchived]) :
    ∃ a, fromLatticeDoc float C clock d = .ok a ∧ a.context = (d.find? "context").getD (.str "") := by
  obtain ⟨x, hx⟩ : ∃ x, d.without (· ∈ latticeInternal) = x := ⟨_, rfl⟩
  have hfind : ∀ k ∉ latticeInternal, x.find? k = d.find? k := by
    intro k hk
    rw [← hx, Doc.find?_without _ (by simpa using hk)]
  have hget : ∀ k ∉ latticeInternal, x.get k = d.get k := by
    intro k hk
    unfold Doc.get
    rw [hfind k hk]
  have hunseal : unsealContentFields float C x = .ok x := by
    unfold unsealContentFields
    rw [contextDict_of_find? (hfind "context" (by decide)), hctx]
    dsimp only
    rw [hsealed]
    rfl
  have hbody : decryptBody float C true x = .ok x := by
    unfold decryptBody
    rw [hget "content_ref" (by decide), href, hget "content_encrypted" (by decide), henc]
    rfl
  obtain ⟨a, ha⟩ : ∃ a, Artifact.ofDict clock x = .ok a := by
    refine ofDict_of_state _ ?_
    unfold stateOf at hstate ⊢
    rw [hget "state" (by decide)]
    exact hstate
  refine ⟨a, ?_, ?_⟩
  · unfold fromLatticeDoc decryptArtifactContent
    rw [hx, hunseal]
    change (decryptBody float C true x).bind _ = _
    rw [hbody]
    exact ha
  · rw [(ofDict_ok ha).2, hfind "context" (by decide)]

namespace IssuerCall

variable {d : Doc}

variable (c : IssuerCall) {systemId text : String}

theorem context_get {k : String} (hk : k ∉ ["content_type", "issuer", "role", "authorized_by", "audience", "jwks",
    "jwks_uri", "namespace"]) : c.context.find? k = none := by
  refine Doc.find?_of_notMem ?_
  intro hmem
  refine hk ?_
  unfold context at hmem
  rw [List.map_append, List.mem_append] at hmem
  rcases hmem with hmem | hmem
  · simp only [List.map_cons, List.map_nil] at hmem
    exact List.mem_append_left _ hmem
  · have := (List.filter_sublist.map Prod.fst).subset hmem
    simp only [List.map_cons, List.map_nil] at this
    exact List.mem_append_right ["content_type", "issuer", "role", "authorized_by"] this

theorem context_type : (c.context.get "content_type") = .str issuerContentType := rfl

theorem entity_fields : ∃ f, (c.entity systemId text).toDict = .ok f ∧
    ∀ e ∈ ([("context", .str text), ("content_type", .str issuerContentType), ("created_by", .str systemId),
        ("state", .str stateLive), ("content", .str ""), ("content_ref", .none),
        ("content_encrypted", .none)] : Doc),
      Doc.get ((docOfItems (stripItems (Doc.toItems f))).set "_type" (.str "Artifact")) e.1 = e.2 := by
  refine ⟨_, rfl, ?_⟩
  intro e he
  unfold Doc.get
  simp only [List.mem_cons, List.not_mem_nil, or_false] at he
  rcases he with rfl | rfl | rfl | rfl | rfl | rfl | rfl <;>
  · simp only [Doc.find?_set, entity, List.cons_append, find?_plain_cons]
    simp [Val.isNone, stripNones, Doc.toItems, stripItems, docOfItems, Doc.find?]

theorem contextDict_entity (hjson : JsonDoc float c.context) (ht : c.context.dumps .plain = .ok text)
    (hd : d.get "context" = .str text) : contextDict float d = (some c.context, true) := by
  have hload := hjson.loads ht
  have hne : text ≠ "" := by
    rintro rfl
    rw [loads_empty] at hload
    cases hload
  unfold contextDict
  rw [hd]
  dsimp only
  rw [if_neg hne, hload]
  dsimp only
  rw [docOfItems_toItems]

theorem encrypt_issuer (hjson : JsonDoc float c.context) (ht : c.context.dumps .plain = .ok text)
    (hcontext : d.get "context" = .str text) (hcontent : d.get "content" = .str "")
    (href : d.get "content_ref" = .none) : encryptArtifactContent float C d = .ok d := by
  have hor : ∀ v, (Val.str issuerContentType).orElse v = .str issuerContentType := by
    intro v
    unfold Val.orElse
    rw [if_pos (by decide)]
  have hreadable : ∀ ctx : Doc, ctx.get "content_type" = .str issuerContentType →
      contentTypeOf d ctx ∈ readableContextTypes := by
    intro ctx h
    unfold contentTypeOf
    rw [h, hor, hor]
    decide +kernel
  have hkeys : sealableKeys d c.context = [] := by
    unfold sealableKeys
    rw [if_pos (hreadable _ c.context_type)]
    simp [c.context_get (k := "title") (by decide)]
  have htops : sealableDocFields d (c.context.without (· ∈ ([] : List String))) = [] := by
    unfold sealableDocFields
    rw [if_pos (hreadable _ ?_)]
    rw [Doc.get_without _ (by simp)]
    exact c.context_type
  have hseal : sealContentFields float C d = .ok d := by
    unfold sealContentFields
    rw [c.contextDict_entity hjson ht hcontext]
    dsimp only
    rw [hkeys, htops]
    rfl
  unfold encryptArtifactContent
  rw [hseal]
  change encryptBody C d = _
  unfold encryptBody
  rw [href, hcontent]
  rfl

theorem entity_doc (hjson : JsonDoc float c.context) (ht : c.context.dumps .plain = .ok text) :
    ∃ d, toLatticeDoc float C (c.entity systemId text) = .ok d ∧ d.get "context" = .str text ∧
      d.get "content_type" = .str issuerContentType ∧ d.get "created_by" = .str systemId ∧
      d.get "state" = .str stateLive ∧ d.get "content_ref" = .none ∧ d.get "content_encrypted" = .none := by
  obtain ⟨f, hf, hget⟩ := @entity_fields c systemId text
  simp only [List.forall_mem_cons, List.not_mem_nil, false_implies, implies_true, and_true] at hget
  obtain ⟨hcontext, htype, hby, hstate, hcontent, href, henc⟩ := hget
  refine ⟨_, ?_, hcontext, htype, hby, hstate, href, henc⟩
  unfold toLatticeDoc
  rw [hf]
  exact c.encrypt_issuer hjson ht hcontext hcontent href

/-- **What an issuer artifact gives.** -/
theorem docGives_entity {P : Platform} (hjson : JsonDoc P.float c.context)
    (ht : c.context.dumps .plain = .ok text) (hcontext : d.get "context" = .str text)
    (htype : d.get "content_type" = .str issuerContentType) (hby : d.get "created_by" = .str P.systemId)
    (hstate : d.get "state" = .str stateLive) (href : d.get "content_ref" = .none)
    (henc : d.get "content_encrypted" = .none) : P.docGives d = .ok (issuerConfig c.context) := by
  have hload := hjson.loads ht
  have hne : text ≠ "" := by
    rintro rfl
    rw [loads_empty] at hload
    cases hload
  have hnorm : d.norm.get "context" = .str text := by
    rw [Doc.get_norm, hcontext]
    rfl
  have hlisted : isListed P.float issuerContentType P.systemId (column (d.get "content_type"))
      (column (d.get "created_by")) d.norm = true := by
    have htypeOf : contextType P.float (.str text) = .str issuerContentType := by
      unfold contextType
      dsimp only
      rw [hload]
      dsimp only
      rw [docOfItems_toItems]
      exact c.context_type
    unfold isListed
    rw [htype, hby, Doc.get_norm, hstate, hnorm, htypeOf]
    simp [column, bindText, Val.eqStr, Val.asStr, liveStates, liveStatesAll, Val.norm]
  obtain ⟨a, ha, hcontext'⟩ := @fromLatticeDoc_bare _ P.ciphers _ _ _ P.clock
    (c.contextDict_entity hjson ht hnorm) (c.context_get (by decide)) (by rw [Doc.get_norm, href]; rfl)
    (by rw [Doc.get_norm, henc]; rfl) (by unfold stateOf; rw [Doc.get_norm, hstate]; decide)
  have hconfig : P.configOf a = issuerConfig c.context := by
    have hfind : d.norm.find? "context" = some (.str text) := by
      cases hf : d.norm.find? "context" with
      | none =>
        unfold Doc.get at hnorm
        rw [hf] at hnorm
        cases hnorm
      | some v =>
        unfold Doc.get at hnorm
        rw [hf] at hnorm
        exact congrArg some hnorm
    unfold Platform.configOf
    rw [hcontext', hfind]
    change (if text = "" then _ else _ : Option Doc).bind _ = _
    rw [if_neg hne, hload]
    dsimp only
    rw [docOfItems_toItems]
    rfl
  unfold Platform.docGives Platform.rowConfig
  rw [if_pos hlisted, ha, ← hconfig]
  rfl

end IssuerCall

end Written

/-! ### What the rows of a store give -/

namespace Platform

open Tx

variable {P : Platform} {S : Doc → Prop}

def Gives (P : Platform) (S : Doc → Prop) (db : Store) : Prop :=
  ∀ id r c, db.vertex.lookup id = some r → P.rowGives r = .ok (some c) → S c

def DocGives (P : Platform) (S : Doc → Prop) (d : Doc) : Prop := ∀ c, P.docGives d = .ok (some c) → S c

theorem Gives.of_vertex {db db' : Store} (h : P.Gives S db) (hv : db'.vertex = db.vertex) : P.Gives S db' := by
  unfold Gives
  rw [hv]
  exact h

theorem gives_rowRules : RowRules (P.Gives S) (P.DocGives S) where
  seq := fun _ _ h => h.of_vertex rfl
  conflict := fun _ h => ⟨h.of_vertex rfl, h.of_vertex rfl⟩
  accept := fun _ _ _ _ _ _ _ _ _ _ h => h.of_vertex (Store.acceptEdge_tables _ _ _ _ _).2
  retire := fun _ _ _ _ _ h => h.of_vertex rfl
  reparent := by
    intro doc v h c hc
    have halike : ReadsAlike doc (doc.set "parent_id" v) := by
      intro k hk
      rw [Doc.find?_set, if_neg]
      rintro rfl
      exact hk (by decide)
    exact h c ((docGives_alike halike).mpr hc)
  row := by
    intro db aid doc origin seq s leaf row t hok _ _ _ hrow _ hdb
    obtain ⟨hv, -⟩ := Store.rowStored_rows db aid (stampedDoc doc origin seq (db.vertex.lookup aid)) row seq t
    intro id r c hr hc
    rw [hv, Table.lookup_insert_of] at hr
    split_ifs at hr with hid
    · cases hr
      exact hok c ((rowGives_written hrow).mp hc)
    · exact hdb id r c hr hc

theorem keeps_putArtifact {doc : Doc} {newVersion : Bool} (hdoc : P.DocGives S doc) (n : Node) :
    Keeps (P.Gives S) (putArtifact doc true newVersion) n := by
  refine Mantle.keeps_putArtifact gives_rowRules ?_
  intro d hd
  rcases mem_putRows hd with rfl | ⟨aid, p, -, rfl⟩
  · exact hdoc
  · have hstate : (snapshotDoc aid p).get "state" = .str stateArchived := by
      unfold snapshotDoc
      rw [Doc.get_set_self]
    intro c hc
    rw [docGives_archived hstate] at hc
    cases hc

theorem keeps_revoke (contentChanged : Option Doc → Doc → Bool) (id : String) (revoker : Val) (n : Node) :
    Keeps (P.Gives S) (P.revokeIssuerArtifact contentChanged id revoker) n := by
  refine keeps_get ?_
  cases docOf n.db id with
  | none => exact keeps_pure _ n
  | some raw =>
    refine keeps_ofExcept fun art _ => ?_
    cases revokedContext P.float art.context with
    | none => exact keeps_throw _ n
    | some ctx =>
      refine keeps_ite (fun _ => keeps_pure _ n) fun _ => keeps_ofExcept fun doc hdoc => ?_
      refine keeps_bind (keeps_read (keeps_putArtifact ?_ n)) fun _ n' _ _ => keeps_pure _ n'
      intro c hc
      rw [docGives_archived (toLatticeDoc_state hdoc)] at hc
      cases hc

end Platform

end Mantle
