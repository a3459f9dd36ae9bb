import Mathlib.Data.Prod.Lex
import Mathlib.Data.List.Lex
import Mantle.Access.Cascade
import Mantle.Access.Invalidate

/-!
# Mantle.Search.Recall — a recall and its scope (`search/mantle/sse/router_accessor.py`)

A recall resolves the authorized artifacts, narrows them by the query's tokens, and orders what is left.  A named scope
cuts the contexts the cosine reads, and nothing else.
-/

namespace Mantle

namespace Recall

variable {contexts : List (String × String)} {text x : String} {κ : Type}

/-! ### The query -/

structure Term where
  text : String
  semantic : Bool
  isPhrase : Bool

inductive FieldOperator
  | equals
  | gt
  | lt
  | semantic
  | exact

structure FieldFilter where
  field : String
  value : String
  operator : FieldOperator
  negated : Bool

structure ParsedQuery where
  terms : List Term
  filters : List FieldFilter

inductive RecallErr
  | valueError
  | queryFilter
  /-- `KeyCustodyDenied` or `SystemicKeyFailure`. -/
  | custody
  | access (e : AccessErr)
deriving DecidableEq, Repr

structure SearchQuery where
  queryText : String
  userId : String
  /-- The vector that was given; an empty one is none. -/
  queryEmbedding : List ℚ
  scope : Option (List String)
  from_ : ℕ
  size : ℕ
  sort : String

/-- How much of the query an artifact matched. -/
structure Coverage where
  stems : ℕ
  bigrams : ℕ
  matched : List String

abbrev CoverageLookup := List (String × String) → Option (Table String Coverage)

/-- An artifact in the position the result presents it. -/
structure Ranked where
  artifactId : String
  score : Option ℚ
  collectionId : Option String
  principalId : Option String
  coverage : Option Coverage

namespace Ranked

variable (r : Ranked)

def stems : ℕ := (r.coverage.map (·.stems)).getD 0
def bigrams : ℕ := (r.coverage.map (·.bigrams)).getD 0
def matched : List String := (r.coverage.map (·.matched)).getD []

end Ranked

/-! ### The vector engine (`engine.py`) -/

structure Chunk where
  artifactId : String
  chunkId : ℕ
  score : ℚ

structure MantleHit where
  artifactId : String
  chunkId : ℕ
  score : ℚ
  principalId : String
  collectionId : String

inductive EngineFault
  | custody
  | other

/-- The cells of a node and the cut over a spectrum. -/
structure Engine where
  /-- What a search raises. -/
  fault : List ℚ → List (String × String) → String → Option EngineFault
  /-- The scored chunks of a context's cells that the query is routed to. -/
  chunks : List ℚ → String × String → String → List Chunk
  /-- The positions the beacon cut keeps. -/
  keeps : List ℚ → List MantleHit → ℕ → Bool

/-- `sorted(xs, key=key, reverse=True)`. -/
def sortedDesc {α κ : Type} [LinearOrder κ] (key : α → κ) (xs : List α) : List α :=
  xs.insertionSort fun a b => key b ≤ key a

/-- The best hit for each key, where it was first seen. -/
def keepBest {κ : Type} [DecidableEq κ] (key : MantleHit → κ) (best : List MantleHit) (h : MantleHit) :
    List MantleHit :=
  match best.find? fun b => decide (key b = key h) with
  | none => best ++ [h]
  | some b => if b.score < h.score then best.map fun b => if key b = key h then h else b else best

namespace Engine

variable (E : Engine) (q : List ℚ) (user : String)

/-- `_score_chunks`, over the contexts. -/
def hits (contexts : List (String × String)) (artifacts : List String) : List MantleHit :=
  (contexts.filter fun c => decide (c.1 ≠ "" ∧ c.2 ≠ "")).flatMap fun c =>
    (E.chunks q c user).filterMap fun k =>
      if k.artifactId ∈ artifacts then some ⟨k.artifactId, k.chunkId, k.score, c.1, c.2⟩ else none

def beaconCut (hits : List MantleHit) : List MantleHit :=
  if hits.length ≤ 2 then hits
  else
    let cut := (hits.zipIdx.filter fun e => E.keeps q hits e.2).map Prod.fst
    if cut.isEmpty then hits else cut

def search (contexts : List (String × String)) (topK : ℕ) (artifacts : List String) :
    Except EngineFault (List MantleHit) :=
  match E.fault q contexts user with
  | some f => .error f
  | none =>
    let best := (E.hits q user contexts artifacts).foldl (keepBest fun h => (h.artifactId, h.chunkId)) []
    .ok (E.beaconCut q ((sortedDesc (·.score) best).take topK))

end Engine

/-! ### The accessor -/

/-- What the orderings read of the documents, the corpus and a bound ontology. -/
structure Ranking where
  /-- The rarity of a row's stems among the rows. -/
  rarity : List Ranked → Ranked → ℚ
  /-- `_terms_outside`: how many of an artifact's terms were not asked for; `none` for one that cannot be read. -/
  termsOutside : List String → List String → String → Option ℕ
  /-- `_named_by_the_question`. -/
  named : List String → String → List String
  /-- `ranking.rank`, with whether reach was measured; `none` is an exception. -/
  rank : List (String × ℚ) → String → Option (List (String × ℚ) × Bool)
  /-- `ranking.cut_for`. -/
  cutFor : List (String × ℚ) → String → ℤ

structure Accessor where
  parseQuery : String → ParsedQuery
  compileFilters : List FieldFilter → Except RecallErr (Option ArtifactPredicate)
  /-- `TokenNarrower.lookup_for`, of a text and the requester. -/
  narrower : Option (String → String → Option CoverageLookup)
  embeddings : String → Option (List ℚ)
  ranker : Option Engine
  ranking : Ranking
  archived : Bool

structure RecallPlan where
  parsed : ParsedQuery
  predicate : Option ArtifactPredicate
  retrievalText : String

inductive Ordering
  | semantic
  | reach
  | coverage
  | recency
deriving DecidableEq, Repr

structure SearchHit where
  docId : String
  score : Option ℚ
  versionId : Val
  collectionId : Val
  principalId : Option String

structure SearchResult where
  hits : List SearchHit
  total : ℕ
  totalIsCapped : Bool
  ordering : Ordering

/-- What both entry points resolve before anything is ordered. -/
structure Narrowed where
  plan : RecallPlan
  scope : AuthorizedScope
  coverage : Table String Coverage
  contexts : List (String × String)

def Narrowed.isNothing (e : Narrowed) : Bool := e.scope.artifactIds.isEmpty || e.contexts.isEmpty

/-! ### Orders on what was narrowed -/

section Orders

variable (R : Ranking)

def stamp (scope : AuthorizedScope) (a : String) : String := (scope.updatedAt.lookup a).getD ""

def byRecency (scope : AuthorizedScope) : List Ranked :=
  (sortedDesc (fun a => toLex (stamp scope a, a)) scope.artifactIds.dedup).map fun a => ⟨a, none, none, none, none⟩

def byCoverage (scope : AuthorizedScope) (coverage : Table String Coverage) : List Ranked :=
  let cover := fun a => (coverage.lookup a).getD ⟨0, 0, []⟩
  (sortedDesc (fun a => toLex ((cover a).stems, toLex ((cover a).bigrams, toLex (stamp scope a, a))))
    scope.artifactIds.dedup).map fun a => ⟨a, some (cover a).stems, none, none, some (cover a)⟩

def rarityKey (ordered : List Ranked) (r : Ranked) : ℕ ×ₗ ℕ ×ₗ ℚ :=
  toLex (r.stems, toLex (r.bigrams, R.rarity ordered r))

def leadingBand : List Ranked → Option ℕ
  | [] => none
  | r :: ranked =>
    let band := ((r :: ranked).takeWhile fun s => decide (s.stems = r.stems)).length
    if band ≥ (r :: ranked).length then none else some band

def identityKey (r : Ranked) : ℕ ×ₗ ℕ ×ₗ List String :=
  toLex (r.stems, toLex (r.bigrams, r.matched.insertionSort (· ≤ ·)))

def coverageNamesTheAnswer (ordered : List Ranked) (topK : ℕ) : Option (List Ranked) :=
  let ranked := sortedDesc (rarityKey R ordered) ordered
  match ranked with
  | lead :: runner :: _ =>
    if lead.matched.isEmpty then none
    else if (leadingBand (ranked.take (max topK 2))).isNone then none
    else if identityKey runner < identityKey lead then some ranked
    else none
  | _ => none

def leadIsNotMerelyBroad : List Ranked → Bool
  | lead :: runner :: _ =>
    if lead.matched.isEmpty then true
    else
      match R.termsOutside [lead.artifactId, runner.artifactId] lead.matched lead.artifactId,
          R.termsOutside [lead.artifactId, runner.artifactId] lead.matched runner.artifactId with
      | some l, some r => decide ((l : ℚ) / max 1 lead.stems ≤ (r : ℚ) / max 1 runner.stems)
      | _, _ => true
  | _ => true

def unreadable : ℕ := 2 ^ 30

def breakATiedLead (ordered : List Ranked) (topK page : ℕ) : Option (List Ranked) :=
  let ranked := sortedDesc (rarityKey R ordered) ordered
  if ordered.length < 2 then none
  else
    match leadingBand (ranked.take (max topK 2)) with
    | none => none
    | some leading =>
      if leading > max 1 page then none
      else
        let group := ranked.take leading
        let asked := (group.head?.map Ranked.matched).getD []
        let outside := fun r : Ranked =>
          (R.termsOutside (group.map Ranked.artifactId) asked r.artifactId).getD unreadable
        match group.insertionSort fun a b => outside a ≤ outside b with
        | lead :: runner :: rest =>
          if outside lead ≥ outside runner then none
          else some (lead :: runner :: rest ++ ranked.drop leading)
        | _ => none

def namedKey (named : List String) (r : Ranked) : ℕ ×ₗ ℕ :=
  toLex (r.stems, if r.artifactId ∈ named then 1 else 0)

def namedBreakTheTie (ordered : List Ranked) (text : String) : List Ranked :=
  if ordered.length < 2 ∨ text = "" then ordered
  else
    let named := R.named (ordered.map Ranked.artifactId) text
    if named.isEmpty then ordered else sortedDesc (namedKey named) ordered

def coverageOutranksReach (survived : List Ranked) (named : List String) : List Ranked :=
  if survived.any fun r => r.matched.isEmpty then survived else sortedDesc (namedKey named) survived

def reachPool (ordered : List Ranked) (text : String) (topK : ℕ) : List Ranked :=
  let pool := (sortedDesc (rarityKey R ordered) ordered).take topK
  let outside := ordered.filter fun r => decide (r.artifactId ∉ pool.map Ranked.artifactId)
  let named := R.named (outside.map Ranked.artifactId) text
  pool ++ outside.filter fun r => decide (r.artifactId ∈ named)

/-- `_by_reach`; `none` where the arm could not run. -/
def byReach (text : String) (ordered : List Ranked) (topK : ℕ) : Option (List Ranked) :=
  let pool := reachPool R ordered text topK
  if text = "" ∨ pool.isEmpty then none
  else
    match R.rank (pool.map fun r => (r.artifactId, -(r.score.getD 0))) text with
    | some (ranked, true) =>
      -- the ranking may add candidates; only those that went in come back
      let rows := ranked.filterMap fun e =>
        (pool.reverse.find? fun r => decide (r.artifactId = e.1)).map fun r => { r with score := some (-e.2) }
      if rows.isEmpty then none
      else
        let scored := ranked.filter fun e => decide (e.1 ∈ pool.map Ranked.artifactId)
        let cut := (max 1 (min (R.cutFor scored text) rows.length)).toNat
        let survived := rows.take cut
        let named := R.named (rows.map Ranked.artifactId) text
        let spared := (rows.drop cut).filter fun r =>
          decide (r.artifactId ∈ named ∧ r.artifactId ∉ survived.map Ranked.artifactId)
        some (coverageOutranksReach (survived ++ spared) named)
    | _ => none

end Orders

namespace Accessor

variable (A : Accessor) (now : Val → Bool) (db : Store) (q : SearchQuery)

/-- `_by_cosine`; `none` where the arm could not run. -/
def byCosine (contexts : List (String × String)) (embedding : List ℚ) (scope : AuthorizedScope) (topK : ℕ) :
    Except RecallErr (Option (List Ranked)) :=
  match A.ranker with
  | none => .ok none
  | some E =>
    match E.search embedding q.userId contexts topK scope.artifactIds with
    | .error .custody => .error .custody
    | .error .other => .ok none
    | .ok hits =>
      let best := (hits.filter fun h => decide (h.artifactId ∈ scope.artifactIds)).foldl
        (keepBest MantleHit.artifactId) []
      .ok (some ((sortedDesc (·.score) best).map fun h =>
        ⟨h.artifactId, some h.score, some h.collectionId, some h.principalId, none⟩))

/-- The arms of `_order` below the cosine. -/
def orderByText (scope : AuthorizedScope) (coverage : Table String Coverage) (topK : ℕ) :
    Ordering × List Ranked :=
  if coverage.keys.isEmpty then (.recency, byRecency scope)
  else
    let ordered := byCoverage scope coverage
    let text := strip q.queryText
    let page := if q.size = 0 then 10 else q.size
    let named := (coverageNamesTheAnswer A.ranking ordered topK).filter (leadIsNotMerelyBroad A.ranking)
    match named.orElse fun _ => breakATiedLead A.ranking ordered topK page with
    | some named => (.coverage, namedBreakTheTie A.ranking named text)
    | none =>
      match byReach A.ranking text ordered topK with
      | some reached => (.reach, reached)
      | none => (.coverage, ordered)

def order (scope : AuthorizedScope) (contexts : List (String × String)) (embedding : Option (List ℚ))
    (coverage : Table String Coverage) (topK : ℕ) : Except RecallErr (Ordering × List Ranked) :=
  if q.sort = "recency" then .ok (.recency, byRecency scope)
  else
    match embedding with
    | none => .ok (A.orderByText q scope coverage topK)
    | some embedding =>
      (A.byCosine q contexts embedding scope topK).map fun
        | some ranked => (.semantic, ranked)
        | none => A.orderByText q scope coverage topK

def planRecall (queryText : String) (hasVector : Bool) : Except RecallErr RecallPlan := do
  let parsed := A.parseQuery queryText
  let predicate ← A.compileFilters parsed.filters
  if !parsed.filters.isEmpty && parsed.terms.isEmpty && !hasVector then .error .queryFilter
  else .ok ⟨parsed, predicate, strip (" ".intercalate (parsed.terms.map Term.text))⟩

/-- `_narrowing_text`: one phrase gets its quotes back. -/
def narrowingText (plan : RecallPlan) : String :=
  match plan.parsed.terms with
  | [term] => if term.isPhrase then "\"" ++ plan.retrievalText ++ "\"" else plan.retrievalText
  | _ => plan.retrievalText

/-- `_narrowing`, the lookup alone. -/
def narrowing (narrower : String → String → Option CoverageLookup) (plan : RecallPlan) : Option CoverageLookup :=
  if plan.retrievalText = "" ∨ q.userId = "" then none else narrower (narrowingText plan) q.userId

def coverageOf (lookup : Option CoverageLookup) (contexts : List (String × String)) : Table String Coverage :=
  ((lookup.bind fun f => if contexts.isEmpty then none else f contexts)).getD ∅

def scopedContexts (contexts : List (String × String)) : List (String × String) :=
  match q.scope with
  | none => contexts
  | some [] => contexts
  | some allowed => contexts.filter fun c => decide (c.2 ∈ allowed)

/-- The start of `search` and of `candidates`; `none` for a query of nothing. -/
def narrowed : Except RecallErr (Option Narrowed) :=
  match A.narrower with
  | none => .error .valueError
  | some narrower => do
    let plan ← A.planRecall q.queryText !q.queryEmbedding.isEmpty
    if plan.parsed.terms.isEmpty && q.queryEmbedding.isEmpty then .ok none
    else
      let lookup := narrowing q narrower plan
      match resolveAuthorizedScope now db q.userId Action.read.name plan.predicate
          (lookup.map fun f contexts => (f contexts).map AList.keys) with
      | .error e => .error (.access e)
      | .ok scope => .ok (some ⟨plan, scope, coverageOf lookup scope.contexts, scopedContexts q scope.contexts⟩)

/-- `_embed_or_none`: the semantic terms, else the whole text. -/
def embedOrNone (plan : RecallPlan) : Option (List ℚ) :=
  let semantic := (plan.parsed.terms.filter Term.semantic).map Term.text
  let text := if semantic.isEmpty then plan.retrievalText else " ".intercalate semantic
  if strip text = "" then none else (A.embeddings text).filter fun v => !v.isEmpty

def horizon : ℕ := max ((q.from_ + q.size) * 3) 50

/-- `_order`, of what was narrowed. -/
def ordered (e : Narrowed) : Except RecallErr (Ordering × List Ranked) :=
  A.order q e.scope e.contexts (if q.queryEmbedding.isEmpty then A.embedOrNone e.plan else some q.queryEmbedding)
    e.coverage (horizon q)

/-- `search`, up to the ordering. -/
def rankedFor : Except RecallErr (Ordering × List Ranked) := do
  match ← A.narrowed now db q with
  | none => .ok (.recency, [])
  | some e => if e.isNothing then .ok (.recency, []) else A.ordered q e

/-! ### Results -/

/-- `_safe_get`: the segment's version of a lineage, else the row at its root. -/
def safeGet (archived : Bool) (id : String) : Option Doc :=
  let found := if archived then ((versionsOf db id).filter fun d => decide (stateOf d = "archived")).getLast?
    else newestByRoot db id
  found.orElse fun _ => docOf db id

/-- `_hydrate`, of one row. -/
def hydrate (r : Ranked) : SearchHit :=
  let doc := (safeGet db A.archived r.artifactId).getD []
  { docId := r.artifactId
    score := r.score
    versionId := (doc.get "_key").orElse ((doc.get "id").orElse (.str r.artifactId))
    collectionId := ((r.collectionId.map Val.str).getD .none).orElse (doc.get "collection_id")
    principalId := r.principalId }

def search : Except RecallErr SearchResult :=
  (A.rankedFor now db q).map fun (ordering, ranked) =>
    { hits := ((ranked.drop q.from_).take q.size).map (A.hydrate db)
      total := ranked.length
      totalIsCapped := (ordering = .semantic || ordering = .reach) && decide (horizon q ≤ ranked.length)
      ordering := ordering }

/-- The collection `candidates` files an artifact under. -/
def candidateCollection (id : String) : Option String :=
  let doc := (safeGet db false id).getD []
  let c := (doc.get "collection_id").orElse ((doc.get "_key").orElse (doc.get "id"))
  if c.truthy then some c.pyStr else none

end Accessor

/-! ### The request (`recall_artifacts`) -/

structure CarriedGrant where
  resourceId : String
  canRead : Bool

structure AuthContext where
  userId : Option String
  bearerGrant : Option CarriedGrant
  isKey : Bool
  grants : List CarriedGrant

def readable (grants : List CarriedGrant) : List String :=
  (grants.filter fun g => g.canRead && decide (g.resourceId ≠ "")).map CarriedGrant.resourceId

variable {o : Ordering} {ordered out ranked : List Ranked} {r : Ranked}

section Rows

variable {A : Accessor} {now : Val → Bool} {db : Store} {q : SearchQuery} {scope : AuthorizedScope}
  {coverage : Table String Coverage} {contexts : List (String × String)} {topK : ℕ} {R : Ranking}

def ids (ranked : List Ranked) : List String := ranked.map Ranked.artifactId

/-- What an ordering keeps: authorized artifacts alone, all of them by recency and by coverage, and a row has a
collection only from the engine. -/
structure Keeps (scope : AuthorizedScope) (contexts : List (String × String)) (o : Ordering) (ranked : List Ranked) :
    Prop where
  authorized : ∀ x ∈ ids ranked, x ∈ scope.artifactIds
  whole : o = .recency ∨ o = .coverage → ∀ x ∈ scope.artifactIds, x ∈ ids ranked
  filed : o = .semantic → ∀ r ∈ ranked, ∃ c, r.collectionId = some c ∧ c ≠ "" ∧ c ∈ contexts.map Prod.snd
  unfiled : o ≠ .semantic → ∀ r ∈ ranked, r.collectionId = none

end Rows

/-! ### In scope -/

variable {e : Narrowed}

section Scoped

variable (A : Accessor) (now : Val → Bool) (db : Store) (q : SearchQuery) (S : List String)

def Asks : Prop := (A.parseQuery q.queryText).terms ≠ [] ∨ q.queryEmbedding ≠ []

def Filed (contexts : List (String × String)) (x : String) : Prop :=
  ∃ c, Accessor.candidateCollection db x = some c ∧ c ∈ contexts.map Prod.snd

variable {A now db q S}

theorem resolve_nobody (action : String) : resolve now db "" action = .ok [] := by
  have hgrants : getActiveGrantsForGrantee now db "" = .ok [] := by
    unfold getActiveGrantsForGrantee userGrantDocs grantDocsBy
    rfl
  unfold resolve
  cases Action.ofName action with
  | none => rfl
  | some a =>
    dsimp only
    rw [hgrants]
    rfl

end Scoped

def plainAccessor : Accessor where
  parseQuery := fun text => ⟨[⟨text, false, false⟩], []⟩
  compileFilters := fun _ => .ok none
  narrower := some fun _ _ => some fun _ => some (((∅ : Table String Coverage).insert "x" ⟨1, 0, ["t"]⟩).insert
    "y" ⟨1, 0, ["t"]⟩)
  embeddings := fun _ => none
  ranker := none
  ranking := ⟨fun _ _ => 0, fun _ _ _ => none, fun _ _ => [], fun _ _ => none, fun _ _ => 0⟩
  archived := false

def recallNode (collections : List String) : Node :=
  hereNode.run
    ([.putArtifact [("id", .str "c"), ("content_type", .str collectionContentType)] true false,
      .putArtifact [("id", .str "k"), ("content_type", .str collectionContentType)] true false,
      .putArtifact [("id", .str "x"), ("collection_id", .str "c")] true false,
      .putArtifact [("id", .str "y"), ("collection_id", .str "k")] true false] ++
      collections.map fun c => .putArtifact (grantDoc ("g" ++ c) "u" c "allow") true false)

def plainQuery (sort : String) : SearchQuery := ⟨"t", "u", [], some ["c"], 0, 10, sort⟩

end Recall

end Mantle
