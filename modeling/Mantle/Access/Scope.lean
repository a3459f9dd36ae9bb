import Mantle.Access.Gate

/-!
# Mantle.Access.Scope — the authorized search scope, by its two routes

`resolve_authorized_scope` without a token lookup enumerates the light cone; with one it asks for candidates and walks
up from each.
-/

namespace Mantle

open Walk

structure AuthorizedScope where
  contexts : List (String × String)
  artifactIds : List String
  updatedAt : List (String × String)

/-- A caller's filter over documents; `none` is an exception. -/
abbrev ArtifactPredicate := Doc → Option Bool

/-- A blind-token narrowing over the contexts; `none` is an exception. -/
abbrev TokenLookup := List (String × String) → Option (List String)

/-- The filter keeps the document: there is none, or it could be evaluated and holds. -/
def passes (pred : Option ArtifactPredicate) (doc : Doc) : Bool :=
  match pred with
  | none => true
  | some f => (f doc).getD false

def tokenNarrowing (lookup : TokenLookup) (contexts : List (String × String)) : List String :=
  if contexts.isEmpty then [] else (lookup contexts).getD []

/-! ### Walking up from a candidate -/

def decideAt (allow deny : List String) (rid : String) : Option Bool :=
  if rid ∈ deny then some false else if rid ∈ allow then some true else none

/-- What a walk decided; one that raised or ran out admits nothing. -/
def verdict : Except AccessErr (Option Bool) → Bool
  | .ok (some b) => b
  | _ => false

section Walks

variable (db : Store) (a : Action) (allow deny : List String)

def reaches (id : String) (root : Option String) : Bool :=
  verdict ((originChain db id a root).find fun rid => .ok (decideAt allow deny rid))

/-- A resource of a candidate's walk: past the candidate and its root, the ancestor's own walk decides. -/
def decideCandidate (id root rid : String) : Option Bool :=
  if rid ∈ deny then some false
  else if rid ∈ allow then some true
  else if rid ≠ id ∧ rid ≠ root then some (reaches db a allow deny rid (some rid))
  else none

def authorized (id root : String) : Bool :=
  verdict ((originChain db id a (some root)).find fun rid =>
    .ok (decideCandidate db a allow deny id root rid))

/-! ### Custody -/

def resolveCellPrincipal (cid : String) : Except AccessErr String :=
  if cid = "" then .ok ""
  else
    match getOriginRoot db cid with
    | .error _ => .error .cellPrincipalUnresolved
    | .ok root => .ok (if root = "" then cid else root)

/-- `_add`: the pair of a collection whose principal can be resolved. -/
def custodyPair (cid : String) : Option (String × String) :=
  if cid = "" then none
  else
    match resolveCellPrincipal db cid with
    | .error _ => none
    | .ok cell => if cell = "" then none else some (cell, cid)

def collectionIds : List String :=
  ((sortedVertices db).filter fun v =>
    v.2.ct.eqStr collectionContentType && !(v.2.doc.val.get "state").eqStr "archived").filterMap
    fun v => if (v.2.doc.val.get "id").truthy then some (v.2.doc.val.get "id").pyStr else none

def custodyOf (doc : Doc) (id : String) : String :=
  ((doc.get "collection_id").orElse (.str id)).pyStr

/-- `sorted(pairs)`, of a set. -/
def sortedPairs (pairs : List (String × String)) : List (String × String) :=
  pairs.dedup.insertionSort fun e f => e.1 < f.1 ∨ e.1 = f.1 ∧ e.2 ≤ f.2

/-- The collections the principal may hold keys for, by a walk or by a direct grant. -/
def custodyCollections : List String :=
  ((collectionIds db).filter fun c => reaches db a allow deny c none) ++
    (allow.filter fun r => decide (r ∉ deny)).filterMap fun r => (docOf db r).map fun d => custodyOf d r

def custodyContexts : List (String × String) :=
  if allow.isEmpty then []
  else sortedPairs ((custodyCollections db a allow deny).filterMap (custodyPair db))

end Walks

/-! ### Documents -/

def newestByRoot (db : Store) (root : String) : Option Doc :=
  if root = "" then none
  else
    ((db.vertex.toPairs.filter fun v => v.2.rootId.eqStr root).insertionSort fun v w =>
      v.2.origin < w.2.origin ∨ v.2.origin = w.2.origin ∧ v.2.seq ≤ w.2.seq).reverse.findSome?
      fun v => if stateOf v.2.doc.val = "archived" then none else some v.2.doc.val

/-- `_raw_artifacts`, at one id: the row's document, else the newest version of that root. -/
def rawArtifact (db : Store) (id : String) : Option Doc :=
  match db.vertex.lookup id with
  | some r => some r.doc.val
  | none => newestByRoot db id

/-- The document the narrowed route reads a candidate by; an empty one is none. -/
def shownDoc (db : Store) (id : String) : Option Doc :=
  (rawArtifact db id).bind fun d => if d.isEmpty then none else some d

/-! ### The two routes -/

/-- The entry of an artifact in `updated_at`. -/
def stampOf (e : String × Doc) : Option (String × String) :=
  if (e.2.get "modified_time").truthy then some (e.1, (e.2.get "modified_time").pyStr) else none

/-- The route with a lookup: the candidates that are shown, authorized and pass the filter. -/
def narrowedScope (db : Store) (a : Action) (allow deny : List String)
    (pred : Option ArtifactPredicate) (lookup : TokenLookup) : AuthorizedScope :=
  let contexts := custodyContexts db a allow deny
  if contexts.isEmpty then ⟨[], [], []⟩
  else
    let kept := (tokenNarrowing lookup contexts).filterMap fun id => (shownDoc db id).bind fun doc =>
      if authorized db a allow deny id (rootIn doc id) && passes pred doc then some (id, doc) else none
    ⟨contexts, kept.map Prod.fst, kept.filterMap stampOf⟩

/-- The context of one readable document; a principal that cannot be resolved raises. -/
def contextOf (db : Store) (doc : Doc) : Except AccessErr (Option (String × String)) :=
  let cid := (doc.get "collection_id").orElse ((doc.get "_key").orElse (doc.get "id"))
  if !cid.truthy then .ok none
  else
    (resolveCellPrincipal db cid.pyStr).map fun cell =>
      if cell = "" then none else some (cell, cid.pyStr)

/-- The route without a lookup: the cone's ids, and the contexts of their documents. -/
def enumeratedScope (db : Store) (ids : List String) (pred : Option ArtifactPredicate) :
    Except AccessErr AuthorizedScope :=
  if ids.isEmpty then .ok ⟨[], [], []⟩
  else
    let readable := ids.filterMap fun id => (docOf db id).map fun d => (id, d)
    let kept := match pred with
      | none => ids
      | some _ => (readable.filter fun e => passes pred e.2).map Prod.fst
    (readable.mapM fun e => contextOf db e.2).map fun pairs =>
      ⟨sortedPairs (pairs.filterMap id), kept,
       (readable.filterMap stampOf).filter fun e => decide (e.1 ∈ kept)⟩

/-- `resolve_authorized_scope`, for a user principal.  No mask carries an unknown action, so there is
no context for one. -/
def resolveAuthorizedScope (now : Val → Bool) (db : Store) (p action : String)
    (pred : Option ArtifactPredicate) (lookup : Option TokenLookup) :
    Except AccessErr AuthorizedScope :=
  match lookup with
  | none =>
    match resolve now db p action with
    | .error e => .error e
    | .ok ids => enumeratedScope db ids pred
  | some lookup =>
    match getActiveGrantsForGrantee now db p with
    | .error e => .error e
    | .ok grants =>
      match Action.ofName action with
      | none => .ok ⟨[], [], []⟩
      | some a =>
        .ok (narrowedScope db a (seedsOf grants fun m => m.allows a)
          (seedsOf grants fun m => m.isDeny && m.carries a) pred lookup)

/-! ### Nearest first -/

/-- The line of a candidate as the narrowed route reads it: the candidate and its root, then the first
ancestor's own line. -/
def candidateLine (db : Store) (a : Action) (id root : String) : List String :=
  let own := (originChain db id a (some root)).items
  own.takeWhile (fun r => decide (r = id ∨ r = root)) ++
    match own.dropWhile (fun r => decide (r = id ∨ r = root)) with
    | [] => []
    | r :: _ => (originChain db r a (some r)).items

def AllowFirst (allow deny : String → Prop) (line : List String) : Prop :=
  ∃ pre r post, line = pre ++ r :: post ∧ allow r ∧ ∀ q ∈ pre ++ [r], ¬deny q

theorem allowFirst_cons {allow deny : String → Prop} {r : String} {line : List String} :
    AllowFirst allow deny (r :: line) ↔ ¬deny r ∧ (allow r ∨ AllowFirst allow deny line) := by
  constructor
  · rintro ⟨pre, q, post, h, hq, hclear⟩
    cases pre with
    | nil =>
      cases h
      exact ⟨hclear r (by simp), .inl hq⟩
    | cons z pre =>
      cases h
      exact ⟨hclear r (by simp), .inr ⟨pre, q, post, rfl, hq, fun y hy => hclear y (by simp_all)⟩⟩
  · rintro ⟨hd, ha | ⟨pre, q, post, rfl, hq, hclear⟩⟩
    · exact ⟨[], r, line, rfl, ha, by simpa using hd⟩
    · refine ⟨r :: pre, q, post, rfl, hq, ?_⟩
      intro y hy
      rcases List.mem_cons.mp hy with rfl | hy
      · exact hd
      · exact hclear y hy

theorem findSome_decideAt_iff {allow deny : List String} {line : List String} :
    line.findSome? (decideAt allow deny) = some true ↔ AllowFirst (· ∈ allow) (· ∈ deny) line := by
  induction line with
  | nil =>
    constructor
    · simp
    · rintro ⟨pre, r, post, h, -⟩
      simp at h
  | cons r line ih =>
    rw [allowFirst_cons, ← ih, List.findSome?_cons]
    unfold decideAt
    by_cases hd : r ∈ deny
    · simp [hd]
    · by_cases ha : r ∈ allow
      · simp [hd, ha]
      · simp [hd, ha]

theorem verdict_find_iff {f : String → Option Bool} {t : Trail AccessErr String} :
    verdict (t.find fun r => .ok (f r)) = true ↔ t.items.findSome? f = some true := by
  rw [← Trail.find_pure_some_iff (ε := AccessErr)]
  cases h : t.find fun r => .ok (f r) with
  | error e => simp [verdict]
  | ok o => cases o <;> simp [verdict]

section Walks

variable {db : Store} {a : Action} {allow deny : List String}

theorem reaches_iff {id : String} {root : Option String} :
    reaches db a allow deny id root = true ↔
      AllowFirst (· ∈ allow) (· ∈ deny) (originChain db id a root).items := by
  unfold reaches
  rw [verdict_find_iff, findSome_decideAt_iff]

theorem originChain_head (id : String) (root : Option String) :
    ∃ rest, (originChain db id a root).items = id :: rest := by
  unfold originChain
  dsimp only
  split_ifs <;> exact ⟨_, rfl⟩

theorem decideCandidate_far {id root r : String} (h : ¬(r = id ∨ r = root)) :
    decideCandidate db a allow deny id root r = some true ↔
      (originChain db r a (some r)).items.findSome? (decideAt allow deny) = some true := by
  rw [not_or] at h
  obtain ⟨rest, hrest⟩ := @originChain_head db a r (some r)
  have hreach := @reaches_iff db a allow deny r (some r)
  rw [← findSome_decideAt_iff] at hreach
  rw [← hreach]
  unfold decideCandidate
  by_cases hd : r ∈ deny
  · rw [hreach, hrest, List.findSome?_cons]
    simp [hd, decideAt]
  · by_cases ha : r ∈ allow
    · rw [hreach, hrest, List.findSome?_cons]
      simp [hd, ha, decideAt]
    · simp [hd, ha, h]

theorem decideCandidate_near {id root r : String} (h : r = id ∨ r = root) :
    decideCandidate db a allow deny id root r = decideAt allow deny r := by
  have h' : ¬(r ≠ id ∧ r ≠ root) := by tauto
  unfold decideCandidate decideAt
  simp only [h', if_false]

theorem decideCandidate_far_isSome {id root r : String} (h : ¬(r = id ∨ r = root)) :
    (decideCandidate db a allow deny id root r).isSome = true := by
  rw [not_or] at h
  unfold decideCandidate
  split_ifs <;> simp_all

/-- **The narrowed route's verdict**: the first grant on the candidate's line is an allow. -/
theorem authorized_iff {id root : String} : authorized db a allow deny id root = true ↔
    AllowFirst (· ∈ allow) (· ∈ deny) (candidateLine db a id root) := by
  unfold authorized
  rw [verdict_find_iff, ← findSome_decideAt_iff]
  unfold candidateLine
  dsimp only
  generalize (originChain db id a (some root)).items = own
  induction own with
  | nil => simp
  | cons r own ih =>
    by_cases hr : r = id ∨ r = root
    · simp only [List.findSome?_cons, decideCandidate_near hr, List.takeWhile_cons,
        List.dropWhile_cons, hr, decide_true, if_true, List.cons_append]
      cases decideAt allow deny r with
      | none => exact ih
      | some b => rfl
    · obtain ⟨b, hb⟩ := Option.isSome_iff_exists.mp
        (@decideCandidate_far_isSome db a allow deny _ _ _ hr)
      rw [List.findSome?_cons, hb]
      dsimp only
      rw [← hb, decideCandidate_far hr]
      simp only [List.takeWhile_cons, List.dropWhile_cons, hr, decide_false, Bool.false_eq_true,
        if_false, List.nil_append]

end Walks

/-! ### The condition -/

section Condition

variable (now : Val → Bool) (db : Store) (p : String) (a : Action)

/-- The principal may hold some collection's keys: it reaches the collection, or holds a grant on one of its artifacts.
-/
def HoldsCustody : Prop :=
  ∃ c cell, c ≠ "" ∧ getOriginRoot db c = .ok cell ∧
    (c ∈ collectionIds db ∧ AllowFirst (HoldsAllow now db p a) (HoldsDeny now db p a)
        (originChain db c a none).items ∨
      ∃ r doc, HoldsAllow now db p a r ∧ ¬HoldsDeny now db p a r ∧ docOf db r = some doc ∧
        c = custodyOf doc r)

/-- For a candidate the filter keeps, nearest-first up its line says what the cones say. -/
def RoutesAgree (pred : Option ArtifactPredicate) (m : String) : Prop :=
  ∀ doc, shownDoc db m = some doc → passes pred doc = true →
    (HoldsCustody now db p a ∧ AllowFirst (HoldsAllow now db p a) (HoldsDeny now db p a)
        (candidateLine db a m (rootIn doc m)) ↔
      (docOf db m).isSome ∧ BelowAllow now db p a m ∧ ¬BelowDeny now db p a m)

end Condition

section Spec

variable {now : Val → Bool} {db : Store} {p : String} {a : Action} {pred : Option ArtifactPredicate}

theorem custodyPair_isSome_iff {c : String} : (∃ pair, custodyPair db c = some pair) ↔
    c ≠ "" ∧ ∃ cell, getOriginRoot db c = .ok cell := by
  unfold custodyPair resolveCellPrincipal
  by_cases hc : c = ""
  · simp [hc]
  · simp only [if_neg hc]
    cases getOriginRoot db c with
    | error e => simp
    | ok cell =>
      by_cases hcell : cell = ""
      · simp [hc, hcell]
      · simp [hc, hcell]

theorem sortedPairs_ne_nil_iff {pairs : List (String × String)} :
    sortedPairs pairs ≠ [] ↔ ∃ pair, pair ∈ pairs := by
  rw [ne_eq, List.eq_nil_iff_forall_not_mem]
  unfold sortedPairs
  simp only [List.mem_insertionSort, List.mem_dedup, not_forall, not_not]

theorem custodyContexts_ne_nil_iff {grants : List Grant}
    (h : getActiveGrantsForGrantee now db p = .ok grants) :
    custodyContexts db a (seedsOf grants fun m => m.allows a)
      (seedsOf grants fun m => m.isDeny && m.carries a) ≠ [] ↔ HoldsCustody now db p a := by
  have hallow : (fun r => r ∈ seedsOf grants fun m => m.allows a) = HoldsAllow now db p a :=
    funext fun r => propext (mem_allowSeeds h r)
  have hdeny : (fun r => r ∈ seedsOf grants fun m => m.isDeny && m.carries a) =
      HoldsDeny now db p a := funext fun r => propext (mem_denySeeds h r)
  unfold custodyContexts
  by_cases hempty : (seedsOf grants fun m => m.allows a).isEmpty = true
  · rw [if_pos hempty]
    rw [List.isEmpty_iff] at hempty
    have hnone : ∀ r, ¬HoldsAllow now db p a r := by
      intro r hr
      rw [← hallow, hempty] at hr
      simp at hr
    constructor
    · exact fun hne => absurd rfl hne
    · rintro ⟨c, cell, -, -, ⟨-, pre, r, post, -, hr, -⟩ | ⟨r, doc, hr, -⟩⟩
      · exact absurd hr (hnone r)
      · exact absurd hr (hnone r)
  · rw [if_neg hempty, sortedPairs_ne_nil_iff]
    unfold HoldsCustody custodyCollections
    simp only [List.mem_filterMap, List.mem_append, List.mem_filter, reaches_iff, hallow, hdeny,
      decide_eq_true_eq, Option.map_eq_some_iff]
    constructor
    · rintro ⟨pair, c, hc, hpair⟩
      obtain ⟨hne, cell, hcell⟩ := custodyPair_isSome_iff.mp ⟨pair, hpair⟩
      refine ⟨c, cell, hne, hcell, hc.imp_right ?_⟩
      rintro ⟨r, ⟨hr, hrd⟩, doc, hdoc, rfl⟩
      exact ⟨r, doc, hr, hrd, hdoc, rfl⟩
    · rintro ⟨c, cell, hne, hcell, hc⟩
      obtain ⟨pair, hpair⟩ := custodyPair_isSome_iff.mpr ⟨hne, cell, hcell⟩
      refine ⟨pair, c, hc.imp_right ?_, hpair⟩
      rintro ⟨r, doc, hr, hrd, hdoc, rfl⟩
      exact ⟨r, ⟨hr, hrd⟩, doc, hdoc, rfl⟩

theorem mem_narrowed_iff {grants : List Grant} (h : getActiveGrantsForGrantee now db p = .ok grants)
    (M : List String) (x : String) :
    x ∈ (narrowedScope db a (seedsOf grants fun m => m.allows a)
        (seedsOf grants fun m => m.isDeny && m.carries a) pred fun _ => some M).artifactIds ↔
      x ∈ M ∧ ∃ doc, shownDoc db x = some doc ∧ passes pred doc = true ∧ HoldsCustody now db p a ∧
        AllowFirst (HoldsAllow now db p a) (HoldsDeny now db p a)
          (candidateLine db a x (rootIn doc x)) := by
  have hallow : (fun r => r ∈ seedsOf grants fun m => m.allows a) = HoldsAllow now db p a :=
    funext fun r => propext (mem_allowSeeds h r)
  have hdeny : (fun r => r ∈ seedsOf grants fun m => m.isDeny && m.carries a) =
      HoldsDeny now db p a := funext fun r => propext (mem_denySeeds h r)
  have hcustody := custodyContexts_ne_nil_iff (a := a) h
  unfold narrowedScope tokenNarrowing
  dsimp only
  by_cases hc : custodyContexts db a (seedsOf grants fun m => m.allows a)
      (seedsOf grants fun m => m.isDeny && m.carries a) = []
  · have hno : ¬HoldsCustody now db p a := by
      rw [← hcustody]
      exact not_not_intro hc
    simp [hc, hno]
  · have hyes : HoldsCustody now db p a := hcustody.mp hc
    rw [if_neg (by simpa [List.isEmpty_iff] using hc), if_neg (by simpa [List.isEmpty_iff] using hc)]
    simp only [List.mem_map, List.mem_filterMap, Prod.exists, Option.getD_some,
      Option.bind_eq_some_iff, Option.ite_none_right_eq_some, Option.some.injEq, Prod.mk.injEq,
      Bool.and_eq_true, authorized_iff, hallow, hdeny]
    constructor
    · rintro ⟨_, _, ⟨y, hy, doc, hdoc, ⟨hw, hp⟩, rfl, rfl⟩, rfl⟩
      exact ⟨hy, doc, hdoc, hp, hyes, hw⟩
    · rintro ⟨hx, doc, hdoc, hp, -, hw⟩
      exact ⟨x, doc, ⟨x, hx, doc, hdoc, ⟨hw, hp⟩, rfl, rfl⟩, rfl⟩

theorem mem_enumerated_iff {ids : List String} {S : AuthorizedScope}
    (h : enumeratedScope db ids pred = .ok S) (x : String) :
    x ∈ S.artifactIds ∧ (docOf db x).isSome ↔
      x ∈ ids ∧ ∃ doc, docOf db x = some doc ∧ passes pred doc = true := by
  unfold enumeratedScope at h
  split_ifs at h with hempty
  · cases h
    rw [List.isEmpty_iff] at hempty
    simp [hempty]
  · dsimp only at h
    obtain ⟨pairs, hm, h⟩ := bind_ok h
    cases h
    cases pred with
    | none => simp [passes, Option.isSome_iff_exists]
    | some f =>
      simp only [List.mem_map, List.mem_filter, List.mem_filterMap, Prod.exists,
        Option.map_eq_some_iff, Prod.mk.injEq]
      constructor
      · rintro ⟨⟨_, _, ⟨⟨y, hy, doc, hdoc, rfl, rfl⟩, hp⟩, rfl⟩, -⟩
        exact ⟨hy, doc, hdoc, hp⟩
      · rintro ⟨hx, doc, hdoc, hp⟩
        exact ⟨⟨x, doc, ⟨⟨x, hx, doc, hdoc, rfl, rfl⟩, hp⟩, rfl⟩, by rw [hdoc]; rfl⟩

theorem shownDoc_of_docOf {x : String} {doc : Doc} (h : docOf db x = some doc) :
    shownDoc db x = some doc := by
  unfold docOf at h
  obtain ⟨r, hr, hd⟩ := Option.bind_eq_some_iff.mp h
  unfold shownDoc rawArtifact
  rw [hr]
  exact hd

theorem mem_enumerating_iff {S : AuthorizedScope}
    (h : resolveAuthorizedScope now db p a.name pred none = .ok S) (x : String) :
    x ∈ S.artifactIds ∧ (docOf db x).isSome ↔
      (BelowAllow now db p a x ∧ ¬BelowDeny now db p a x) ∧
        ∃ doc, docOf db x = some doc ∧ passes pred doc = true := by
  unfold resolveAuthorizedScope at h
  dsimp only at h
  cases hr : resolve now db p a.name with
  | error e =>
    rw [hr] at h
    cases h
  | ok ids =>
    rw [hr] at h
    rw [mem_enumerated_iff h x, mem_resolve_iff hr x]

theorem agree_iff (m : String) :
    ((∃ doc, shownDoc db m = some doc ∧ passes pred doc = true ∧ HoldsCustody now db p a ∧
        AllowFirst (HoldsAllow now db p a) (HoldsDeny now db p a)
          (candidateLine db a m (rootIn doc m))) ↔
      (BelowAllow now db p a m ∧ ¬BelowDeny now db p a m) ∧
        ∃ doc, docOf db m = some doc ∧ passes pred doc = true) ↔
    RoutesAgree now db p a pred m := by
  unfold RoutesAgree
  constructor
  · intro h doc hdoc hp
    constructor
    · rintro ⟨hcust, hline⟩
      obtain ⟨hcone, doc', hdoc', -⟩ := h.mp ⟨doc, hdoc, hp, hcust, hline⟩
      exact ⟨by rw [hdoc']; rfl, hcone⟩
    · rintro ⟨hstored, hcone⟩
      obtain ⟨doc', hdoc'⟩ := Option.isSome_iff_exists.mp hstored
      have hsame : doc' = doc := Option.some.inj ((shownDoc_of_docOf hdoc').symm.trans hdoc)
      obtain ⟨doc₂, hdoc₂, -, hcust, hline⟩ := h.mpr ⟨hcone, doc', hdoc', hsame ▸ hp⟩
      have hsame₂ : doc₂ = doc := Option.some.inj (hdoc₂.symm.trans hdoc)
      exact ⟨hcust, hsame₂ ▸ hline⟩
  · intro h
    constructor
    · rintro ⟨doc, hdoc, hp, hcust, hline⟩
      obtain ⟨hstored, hcone⟩ := (h doc hdoc hp).mp ⟨hcust, hline⟩
      obtain ⟨doc', hdoc'⟩ := Option.isSome_iff_exists.mp hstored
      have hsame : doc' = doc := Option.some.inj ((shownDoc_of_docOf hdoc').symm.trans hdoc)
      exact ⟨hcone, doc', hdoc', hsame ▸ hp⟩
    · rintro ⟨hcone, doc, hdoc, hp⟩
      have hshown := shownDoc_of_docOf hdoc
      obtain ⟨hcust, hline⟩ := (h doc hshown hp).mpr ⟨by rw [hdoc]; rfl, hcone⟩
      exact ⟨doc, hshown, hp, hcust, hline⟩

def GrantsRead (now : Val → Bool) (db : Store) (p : String) : Prop :=
  ∀ d ∈ userGrantDocs now db p, ∃ g, Grant.ofDoc d = .ok g

theorem grantsRead_iff :
    GrantsRead now db p ↔ ∃ grants, getActiveGrantsForGrantee now db p = .ok grants :=
  mapM_isOk.symm

/-- **When the two routes agree**: nearest-first and the cones agree on every candidate. -/
theorem narrowed_eq_enumerated_iff (action : String) (M : List String) {S : AuthorizedScope}
    (hS : resolveAuthorizedScope now db p action pred none = .ok S) :
    (∃ F, resolveAuthorizedScope now db p action pred (some fun _ => some M) = .ok F ∧
      ∀ x, x ∈ F.artifactIds ↔ x ∈ S.artifactIds ∧ x ∈ M ∧ (docOf db x).isSome) ↔
    GrantsRead now db p ∧ ∀ a, Action.ofName action = some a → ∀ m ∈ M, RoutesAgree now db p a pred m := by
  rw [grantsRead_iff]
  unfold resolveAuthorizedScope
  dsimp only
  cases hg : getActiveGrantsForGrantee now db p with
  | error e => simp
  | ok grants =>
    dsimp only
    cases ha : Action.ofName action with
    | none =>
      -- no action: both routes are empty
      have hempty : S.artifactIds = [] := by
        unfold resolveAuthorizedScope resolve at hS
        rw [ha] at hS
        cases hS
        rfl
      simp [hempty]
    | some a =>
      obtain rfl := Action.name_of_ofName ha
      simp only [Except.ok.injEq, Option.some.injEq, exists_eq_left', forall_eq', exists_eq', true_and]
      have hside : ∀ x, (x ∈ (narrowedScope db a (seedsOf grants fun m => m.allows a)
          (seedsOf grants fun m => m.isDeny && m.carries a) pred fun _ => some M).artifactIds ↔
          x ∈ S.artifactIds ∧ x ∈ M ∧ (docOf db x).isSome) ↔
          (x ∈ M → RoutesAgree now db p a pred x) := by
        intro x
        have hcone := mem_enumerating_iff hS x
        rw [mem_narrowed_iff hg, ← agree_iff, ← hcone]
        by_cases hx : x ∈ M
        · simp only [hx, true_and, forall_const]
        · simp only [hx, false_and, and_false, false_imp_iff]
      exact forall_congr' hside

end Spec

/-- An artifact in a collection; its reader is denied the collection and allowed the artifact. -/
def deniedAboveNode : Node :=
  hereNode.run
    [.putArtifact [("id", .str "c")] true false,
     .putArtifact [("id", .str "x"), ("collection_id", .str "c")] true false,
     .putArtifact (grantDoc "g1" "u" "c" "deny") true false,
     .putArtifact (grantDoc "g2" "u" "x" "allow") true false]

theorem deniedAbove_routes : ∃ S F,
    resolveAuthorizedScope (fun _ => true) deniedAboveNode.db "u" "read" none none = .ok S ∧
    resolveAuthorizedScope (fun _ => true) deniedAboveNode.db "u" "read" none
      (some fun _ => some ["x"]) = .ok F ∧ "x" ∈ F.artifactIds ∧ "x" ∉ S.artifactIds := by
  have h : ((resolveAuthorizedScope (fun _ => true) deniedAboveNode.db "u" "read" none none).toOption.any fun S =>
      (resolveAuthorizedScope (fun _ => true) deniedAboveNode.db "u" "read" none (some fun _ => some ["x"])).toOption.any
        fun F => decide ("x" ∈ F.artifactIds) && decide ("x" ∉ S.artifactIds)) = true := by decide +kernel
  obtain ⟨S, hS, h⟩ := (Option.any_eq_true _ _).mp h
  obtain ⟨F, hF, h⟩ := (Option.any_eq_true _ _).mp h
  rw [Bool.and_eq_true] at h
  exact ⟨S, F, ok_of_toOption hS, ok_of_toOption hF, of_decide_eq_true h.1, of_decide_eq_true h.2⟩

theorem deniedAbove_routes_differ :
    ¬ ∀ (now : Val → Bool) (db : Store) (p action : String) (pred : Option ArtifactPredicate)
      (M : List String) (S : AuthorizedScope),
      resolveAuthorizedScope now db p action pred none = .ok S →
      ∃ F, resolveAuthorizedScope now db p action pred (some fun _ => some M) = .ok F ∧
        ∀ x, x ∈ F.artifactIds ↔ x ∈ S.artifactIds ∧ x ∈ M ∧ (docOf db x).isSome := by
  intro h
  obtain ⟨S, F, hS, hF, hx, hxS⟩ := deniedAbove_routes
  obtain ⟨F', hF', hiff⟩ := h _ _ _ _ _ ["x"] S hS
  rw [hF] at hF'
  cases hF'
  exact hxS ((hiff "x").mp hx).1

theorem narrowed_eq_enumerated_iff_deniedAbove : ∃ S,
    resolveAuthorizedScope (fun _ => true) deniedAboveNode.db "u" "read" none none = .ok S ∧
    ((∃ F, resolveAuthorizedScope (fun _ => true) deniedAboveNode.db "u" "read" none
        (some fun _ => some ["x"]) = .ok F ∧
        ∀ x, x ∈ F.artifactIds ↔
          x ∈ S.artifactIds ∧ x ∈ ["x"] ∧ (docOf deniedAboveNode.db x).isSome) ↔
      GrantsRead (fun _ => true) deniedAboveNode.db "u" ∧
        ∀ a, Action.ofName "read" = some a → ∀ m ∈ ["x"],
          RoutesAgree (fun _ => true) deniedAboveNode.db "u" a none m) := by
  obtain ⟨S, -, hS, -⟩ := deniedAbove_routes
  exact ⟨S, hS, narrowed_eq_enumerated_iff "read" ["x"] hS⟩

end Mantle
