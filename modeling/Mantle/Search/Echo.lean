import Mantle.Db.Restore
import Mantle.Mesh.Queue
import Mantle.Search.Recall

/-!
# Mantle.Search.Echo — field filters, and the hits they select (`search/field_filters.py`)

A filter reads a document's title, description and groups; `_hydrate` shows the title, description and tags of a hit.
-/

namespace Mantle

namespace Recall

variable {ctx : Doc} {x : Val}

variable (float : String → Flt) (C : Crypto) (lower : String → String)

/-! ### The readers -/

/-- `parse_context`. -/
def filterContext (doc : Doc) : Doc :=
  match doc.get "context" with
  | .dict items => docOfItems items
  | .str s =>
    match Json.loads float s with
    | some (.dict items) => docOfItems items
    | _ => []
  | _ => []

def titleOf (doc ctx : Doc) : Val :=
  (((ctx.get "title").orElse (ctx.get "name")).orElse (doc.get "title")).orElse (doc.get "name")

def descriptionOf (doc ctx : Doc) : Val := (doc.get "description").orElse (ctx.get "description")

/-- The groups of a row, `collections` and `collection_id`. -/
def groupsOf (doc : Doc) : Except PyErr (List String) := do
  let groups ← match (doc.get "collections").orElse (.list []) with
    | .str s => pure [.str s]
    | v => iterVals v
  let own := doc.get "collection_id"
  pure ((groups.filter Val.truthy).map Val.pyStr ++ if own.truthy then [own.pyStr] else [])

def statedTags (ctx : Doc) : Val := ((ctx.get "tags").orElse (ctx.get "tags_canonical")).orElse (.list [])

/-- The stated tags as `_tags` reads them; a text is cut at its commas. -/
def legacyTags (ctx : Doc) : List String :=
  match statedTags ctx with
  | .str s => ((s.splitOn ",").map strip).filter fun p => decide (p ≠ "")
  | .list xs => (xs.filter Val.truthy).map Val.pyStr
  | _ => []

def tagsOf (doc ctx : Doc) : Except PyErr Val :=
  (groupsOf doc).map fun out => .list ((out ++ legacyTags ctx).eraseDups.map Val.str)

/-! ### Filters -/

structure FilterField where
  read : Doc → Doc → Except PyErr Val
  ordered : Bool
  needsContext : Bool

def plainField (key : String) (ordered : Bool) : FilterField := ⟨fun doc _ => .ok (doc.get key), ordered, false⟩

def filterableFields : List (String × FilterField) :=
  [("id", ⟨fun doc _ => .ok ((doc.get "id").orElse (doc.get "_key")), false, false⟩),
   ("root_id", plainField "root_id" false), ("collection_id", plainField "collection_id" false),
   ("content_type", plainField "content_type" false), ("owner_id", plainField "created_by" false),
   ("title", ⟨fun doc ctx => .ok (titleOf doc ctx), false, true⟩),
   ("description", ⟨fun doc ctx => .ok (descriptionOf doc ctx), false, true⟩), ("tags", ⟨tagsOf, false, true⟩),
   ("created_at", plainField "created_time" true), ("updated_at", plainField "modified_time" true)]

def fieldAliases : List (String × String) := [("tag", "tags"), ("type", "content_type")]

def refusedFields : List String := ["state", "content", "size", "filename"]

def asList : Val → List String
  | .none => []
  | .list xs => (xs.filter fun v => !v.isNone).map Val.pyStr
  | .tuple xs => (xs.filter fun v => !v.isNone).map Val.pyStr
  | v => [v.pyStr]

def fieldMatches (spec : FilterField) (filt : FieldFilter) (doc ctx : Doc) : Except PyErr Bool :=
  (spec.read doc ctx).map fun v =>
    let present := asList v
    match filt.operator with
    | .exact => decide (filt.value ∈ present)
    | .gt => present.any fun v => decide (filt.value < v)
    | .lt => present.any fun v => decide (v < filt.value)
    | _ =>
      let wanted := (((filt.value.splitOn ",").map strip).filter fun p => decide (p ≠ "")).map lower
      present.any fun v => decide (lower v ∈ wanted)

def validateFilter (filt : FieldFilter) : Except RecallErr FilterField :=
  let field := (fieldAliases.lookup filt.field).getD filt.field
  if field ∈ refusedFields then .error .queryFilter
  else
    match filterableFields.lookup field, filt.operator with
    | none, _ => .error .queryFilter
    | some _, .semantic => .error .queryFilter
    | some spec, .gt => if spec.ordered then .ok spec else .error .queryFilter
    | some spec, .lt => if spec.ordered then .ok spec else .error .queryFilter
    | some spec, _ => .ok spec

/-- The predicate over validated filters: one after the other, until one disqualifies. -/
def allMatch (doc ctx : Doc) : List (FilterField × FieldFilter) → Except PyErr Bool
  | [] => .ok true
  | (spec, filt) :: rest => do
    if (← fieldMatches lower spec filt doc ctx) = filt.negated then pure false else allMatch doc ctx rest

/-- `compile_filters`; the document is opened when a filter reads its context. -/
def compileFilters (filters : List FieldFilter) : Except RecallErr (Option ArtifactPredicate) :=
  (filters.mapM fun f => (validateFilter f).map fun spec => (spec, f)).map fun specs =>
    if specs.isEmpty then none
    else some fun doc => Except.toOption <|
      if specs.any fun s => s.1.needsContext then do
        let opened ← unsealContentFields float C doc
        allMatch lower opened (filterContext float opened) specs
      else allMatch lower doc [] specs

/-! ### Hits -/

structure ShownHit extends SearchHit where
  rootId : Val
  title : String
  description : String
  content : String
  tags : List String
  state : Option String

def shownTags (ctx : Doc) : List String :=
  match statedTags ctx with
  | .list xs => (xs.filter fun v => decide (strip v.pyStr ≠ "")).map Val.pyStr
  | _ => []

/-- `_hydrate`, of the document of a row; no text of a body that cannot be read fails it. -/
def hydrateDoc (stored : Doc) (r : Ranked) : Except PyErr ShownHit :=
  (decryptArtifactContent float C false stored).map fun doc =>
    let ctx := filterContext float doc
    { docId := r.artifactId
      score := r.score
      versionId := (doc.get "_key").orElse ((doc.get "id").orElse (.str r.artifactId))
      collectionId := ((r.collectionId.map Val.str).getD .none).orElse (doc.get "collection_id")
      principalId := r.principalId
      rootId := (doc.get "root_id").orElse (.str r.artifactId)
      title := ((titleOf doc ctx).orElse (.str "")).pyStr
      description := ((ctx.get "description").orElse (.str "")).pyStr
      content := ((doc.get "content").orElse (.str "")).pyStr
      tags := shownTags ctx
      state := if doc.isEmpty then none else some (stateOf doc) }

/-- The filter `field:="v"` selects the document. -/
def Selects (field v : String) (doc : Doc) : Prop :=
  ∃ pred, compileFilters float C lower [⟨field, v, .exact, false⟩] = .ok (some pred) ∧ pred doc = some true

/-- A document is selected by what its hit shows, and by nothing else. -/
def Echoed (doc : Doc) (hit : ShownHit) : Prop :=
  ∀ v, (Selects float C lower "title" v doc ↔ hit.title = v) ∧
    (Selects float C lower "description" v doc ↔ hit.description = v) ∧
    (Selects float C lower "tags" v doc ↔ v ∈ hit.tags)

/-! ### One text -/

/-- A value that stands for one text: not nothing, no list, and shown as it is. -/
def OneText (v : Val) : Prop :=
  v ≠ .none ∧ (∀ xs, v ≠ .list xs ∧ v ≠ .tuple xs) ∧ (v.truthy = true ∨ v.pyStr = "")

/-- What stands at the top level says the text the context shows; where nothing does, the context says one. -/
def OneDescription (doc ctx : Doc) : Prop :=
  if (doc.get "description").truthy then
    asList (doc.get "description") ≠ [] ∧
      ∀ s ∈ asList (doc.get "description"), s = ((ctx.get "description").orElse (.str "")).pyStr
  else OneText (ctx.get "description")

/-- Every group is stated as a tag in a list, no tag is blank, and one that is falsy is there in another form. -/
def TagsStated (doc ctx : Doc) : Prop :=
  match groupsOf doc with
  | .error _ => shownTags ctx = []
  | .ok groups => (∀ g ∈ groups, g ∈ shownTags ctx) ∧ (∀ s, statedTags ctx = .str s → legacyTags ctx = []) ∧
      ∀ xs, statedTags ctx = .list xs → ∀ v ∈ xs,
        if v.truthy then strip v.pyStr ≠ ""
        else strip v.pyStr = "" ∨ v.pyStr ∈ groups ∨ ∃ w ∈ xs, w.truthy = true ∧ w.pyStr = v.pyStr

/-! ### What the predicate says -/

section Agreement

variable {float C lower} {doc u : Doc} {v : String}

theorem selects_iff {field : String} {spec : FilterField}
    (hspec : ∀ v, validateFilter ⟨field, v, .exact, false⟩ = .ok spec) (hctx : spec.needsContext = true)
    (hu : unsealContentFields float C doc = .ok u) : Selects float C lower field v doc ↔
      ∃ x, spec.read u (filterContext float u) = .ok x ∧ v ∈ asList x := by
  have hcompile : compileFilters float C lower [⟨field, v, .exact, false⟩] = .ok (some fun doc => Except.toOption do
      let opened ← unsealContentFields float C doc
      allMatch lower opened (filterContext float opened) [(spec, ⟨field, v, .exact, false⟩)]) := by
    have hmap : ([⟨field, v, .exact, false⟩] : List FieldFilter).mapM (fun f => (validateFilter f).map fun s => (s, f)) =
        .ok [(spec, ⟨field, v, .exact, false⟩)] := by
      rw [List.mapM_cons, hspec, List.mapM_nil]
      rfl
    unfold compileFilters
    rw [hmap]
    simp only [Except.map, List.isEmpty_cons, List.any_cons, hctx, Bool.true_or, if_true, Bool.false_eq_true, if_false]
  unfold Selects
  rw [hcompile]
  simp only [Except.ok.injEq, Option.some.injEq, exists_eq_left']
  rw [hu]
  cases hx : spec.read u (filterContext float u) with
  | error e => simp [allMatch, fieldMatches, hx, Except.map, bind, Except.bind, Except.toOption]
  | ok x =>
    by_cases hv : v ∈ asList x <;>
      simp [allMatch, fieldMatches, hx, Except.map, bind, Except.bind, hv, pure, Except.pure, Except.toOption]

/-! ### One text -/

theorem only_iff {xs : List String} {s : String} : (∀ v, v ∈ xs ↔ s = v) ↔ xs ≠ [] ∧ ∀ x ∈ xs, x = s := by
  constructor
  · intro h
    exact ⟨List.ne_nil_of_mem ((h s).mpr rfl), fun x hx => ((h x).mp hx).symm⟩
  · rintro ⟨hne, hall⟩ v
    obtain ⟨x, hx⟩ := List.exists_mem_of_ne_nil xs hne
    exact ⟨fun hv => (hall v hv).symm, fun hv => hv ▸ hall x hx ▸ hx⟩

theorem sublist_intercalate {sep y : List Char} : ∀ {ys : List (List Char)}, y ∈ ys → y.Sublist (sep.intercalate ys)
  | [z], h => by
    rw [List.mem_singleton.mp h, List.intercalate_singleton]
  | z :: z' :: ys, h => by
    rw [List.intercalate_cons_cons]
    rcases List.mem_cons.mp h with rfl | h
    · exact (List.sublist_append_left _ _).trans (List.sublist_append_left _ _)
    · exact (sublist_intercalate h).trans (List.sublist_append_right _ _)

theorem mem_reprList : ∀ {xs : List Val}, x ∈ xs → x.repr ∈ Val.reprList xs
  | y :: ys, h => by
    unfold Val.reprList
    rcases List.mem_cons.mp h with rfl | h
    · exact List.mem_cons_self
    · exact List.mem_cons_of_mem _ (mem_reprList h)

theorem pyStr_le_repr (x : Val) : x.pyStr.length ≤ x.repr.length := by
  cases x with
  | str s =>
    have hflat : ∀ (q : Char) (cs : List Char), cs.length ≤ (cs.flatMap (reprChar false q)).length := by
      intro q cs
      induction cs with
      | nil => exact Nat.zero_le _
      | cons c cs ih =>
        have hpos := List.length_pos_iff.mpr (reprChar_ne_nil q c)
        rw [List.flatMap_cons, List.length_append, List.length_cons]
        omega
    unfold Val.repr reprStr reprChars
    dsimp only [Val.pyStr_str]
    rw [String.length_ofList, ← String.length_toList]
    simp only [List.length_append, List.length_singleton]
    have := hflat (if quote ∈ s.toList ∧ '"' ∉ s.toList then '"' else quote) s.toList
    omega
  | _ => exact le_refl _

theorem pyStr_lt_repr {xs : List Val} (h : x ∈ xs) :
    x.pyStr.length < (Val.list xs).repr.length ∧ x.pyStr.length < (Val.tuple xs).repr.length := by
  have hx := pyStr_le_repr x
  have hjoin : x.repr.length ≤ (", ".intercalate (Val.reprList xs)).length := by
    rw [← String.length_toList, ← String.length_toList, String.toList_intercalate]
    exact (sublist_intercalate (List.mem_map_of_mem (mem_reprList h))).length_le
  unfold Val.repr
  simp only [String.length_append]
  have h1 : "[".length = 1 := rfl
  have h2 : "(".length = 1 := rfl
  omega

theorem oneText_iff : (∀ v, v ∈ asList x ↔ (x.orElse (.str "")).pyStr = v) ↔ OneText x := by
  rw [only_iff]
  have hlist : ∀ xs : List Val, x = .list xs ∨ x = .tuple xs →
      ¬(asList x ≠ [] ∧ ∀ s ∈ asList x, s = (x.orElse (.str "")).pyStr) := by
    rintro xs hxs ⟨hne, hall⟩
    have has : asList x = (xs.filter fun v => !v.isNone).map Val.pyStr := by
      rcases hxs with rfl | rfl <;> rfl
    obtain ⟨s, hs⟩ := List.exists_mem_of_ne_nil _ hne
    have heq := hall s hs
    rw [has] at hs
    obtain ⟨y, hy, rfl⟩ := List.mem_map.mp hs
    have hmem := List.mem_of_mem_filter hy
    have hlen := pyStr_lt_repr hmem
    have htruthy : x.truthy = true := by
      have hpos := List.isEmpty_eq_false_iff.mpr (List.ne_nil_of_mem hmem)
      rcases hxs with rfl | rfl <;> simpa [Val.truthy] using hpos
    unfold Val.orElse at heq
    rw [if_pos htruthy] at heq
    rcases hxs with rfl | rfl
    · exact absurd (congrArg String.length heq) (ne_of_lt hlen.1)
    · exact absurd (congrArg String.length heq) (ne_of_lt hlen.2)
  have hone : x ≠ .none → (∀ xs, x ≠ .list xs ∧ x ≠ .tuple xs) → asList x = [x.pyStr] := by
    intro hnone hxs
    cases x with
    | none => exact absurd rfl hnone
    | list xs => exact absurd rfl (hxs xs).1
    | tuple xs => exact absurd rfl (hxs xs).2
    | _ => rfl
  unfold OneText
  constructor
  · intro h
    have hnone : x ≠ .none := by
      rintro rfl
      exact h.1 rfl
    have hxs : ∀ xs, x ≠ .list xs ∧ x ≠ .tuple xs :=
      fun xs => ⟨fun he => hlist xs (.inl he) h, fun he => hlist xs (.inr he) h⟩
    refine ⟨hnone, hxs, ?_⟩
    have hshown := h.2 x.pyStr (by rw [hone hnone hxs]; exact List.mem_singleton_self _)
    unfold Val.orElse at hshown
    split_ifs at hshown with ht
    · exact .inl ht
    · exact .inr hshown
  · rintro ⟨hnone, hxs, hshown⟩
    rw [hone hnone hxs]
    refine ⟨List.cons_ne_nil _ _, fun s hs => ?_⟩
    rw [List.mem_singleton.mp hs]
    unfold Val.orElse
    split_ifs with ht
    · rfl
    · exact hshown.resolve_left ht

theorem oneDescription_iff :
    (∀ v, v ∈ asList (descriptionOf doc ctx) ↔ ((ctx.get "description").orElse (.str "")).pyStr = v) ↔
      OneDescription doc ctx := by
  unfold OneDescription descriptionOf
  by_cases h : (doc.get "description").truthy = true
  · rw [if_pos h, show (doc.get "description").orElse _ = doc.get "description" from if_pos h]
    exact only_iff
  · rw [if_neg h, show (doc.get "description").orElse _ = ctx.get "description" from if_neg h]
    exact oneText_iff

/-! ### Groups -/

theorem mem_tagsOf : (∃ x, tagsOf doc ctx = .ok x ∧ v ∈ asList x) ↔
    ∃ groups, groupsOf doc = .ok groups ∧ (v ∈ groups ∨ v ∈ legacyTags ctx) := by
  unfold tagsOf
  cases hg : groupsOf doc with
  | error e =>
    constructor
    · rintro ⟨_, h, -⟩
      cases h
    · rintro ⟨_, h, -⟩
      cases h
  | ok groups =>
    have hmem : v ∈ asList (.list ((groups ++ legacyTags ctx).eraseDups.map Val.str)) ↔
        v ∈ groups ∨ v ∈ legacyTags ctx := by
      unfold asList
      simp [Val.isNone]
    simp only [Except.map, Except.ok.injEq, exists_eq_left']
    exact hmem

theorem mem_shownTags : v ∈ shownTags ctx ↔
    ∃ xs, statedTags ctx = .list xs ∧ (∃ x ∈ xs, x.pyStr = v) ∧ strip v ≠ "" := by
  unfold shownTags
  split
  · rename_i xs hs
    simp only [hs, Val.list.injEq, exists_eq_left', List.mem_map, List.mem_filter, decide_eq_true_eq]
    constructor
    · rintro ⟨x, ⟨hx, hblank⟩, rfl⟩
      exact ⟨⟨x, hx, rfl⟩, hblank⟩
    · rintro ⟨⟨x, hx, rfl⟩, hblank⟩
      exact ⟨x, ⟨hx, hblank⟩, rfl⟩
  · rename_i hs
    simp only [List.not_mem_nil, false_iff]
    rintro ⟨xs, h, -⟩
    exact hs xs h

theorem tagsStated_iff :
    (∀ v, (∃ x, tagsOf doc ctx = .ok x ∧ v ∈ asList x) ↔ v ∈ shownTags ctx) ↔ TagsStated doc ctx := by
  simp only [mem_tagsOf]
  unfold TagsStated
  cases groupsOf doc with
  | error e =>
    simp only [reduceCtorEq, false_and, exists_false, false_iff]
    exact List.eq_nil_iff_forall_not_mem.symm
  | ok groups =>
    simp only [Except.ok.injEq, exists_eq_left']
    constructor
    · intro h
      refine ⟨fun g hg => (h g).mp (.inl hg), fun s hs => ?_, fun xs hxs v hv => ?_⟩
      · refine List.eq_nil_iff_forall_not_mem.mpr fun t ht => ?_
        obtain ⟨xs, hxs, -⟩ := mem_shownTags.mp ((h t).mp (.inr ht))
        rw [hs] at hxs
        cases hxs
      · have hlegacy : legacyTags ctx = (xs.filter Val.truthy).map Val.pyStr := by
          unfold legacyTags
          rw [hxs]
        split_ifs with ht
        · have hin : v.pyStr ∈ legacyTags ctx := by
            rw [hlegacy]
            exact List.mem_map_of_mem (List.mem_filter.mpr ⟨hv, ht⟩)
          obtain ⟨-, -, -, hblank⟩ := mem_shownTags.mp ((h _).mp (.inr hin))
          exact hblank
        · by_cases hblank : strip v.pyStr = ""
          · exact .inl hblank
          · refine .inr (((h _).mpr (mem_shownTags.mpr ⟨xs, hxs, ⟨v, hv, rfl⟩, hblank⟩)).imp_right fun hin => ?_)
            rw [hlegacy] at hin
            obtain ⟨w, hw, heq⟩ := List.mem_map.mp hin
            exact ⟨w, (List.mem_filter.mp hw).1, (List.mem_filter.mp hw).2, heq⟩
    · rintro ⟨hgroups, htext, hlist⟩ t
      constructor
      · rintro (ht | ht)
        · exact hgroups t ht
        · cases hs : statedTags ctx with
          | str s =>
            rw [htext s hs] at ht
            cases ht
          | list xs =>
            unfold legacyTags at ht
            rw [hs] at ht
            obtain ⟨v, hv, rfl⟩ := List.mem_map.mp ht
            obtain ⟨hv, htruthy⟩ := List.mem_filter.mp hv
            have hblank := hlist xs hs v hv
            rw [if_pos htruthy] at hblank
            exact mem_shownTags.mpr ⟨xs, hs, ⟨v, hv, rfl⟩, hblank⟩
          | _ =>
            unfold legacyTags at ht
            rw [hs] at ht
            cases ht
      · intro ht
        obtain ⟨xs, hxs, ⟨v, hv, rfl⟩, hblank⟩ := mem_shownTags.mp ht
        have hlegacy : ∀ w ∈ xs, w.truthy = true → w.pyStr ∈ legacyTags ctx := by
          intro w hw htruthy
          unfold legacyTags
          rw [hxs]
          exact List.mem_map_of_mem (List.mem_filter.mpr ⟨hw, htruthy⟩)
        have hstated := hlist xs hxs v hv
        split_ifs at hstated with htruthy
        · exact .inr (hlegacy v hv htruthy)
        · rcases hstated.resolve_left hblank with hg | ⟨w, hw, htruthy, heq⟩
          · exact .inl hg
          · exact .inr (heq ▸ hlegacy w hw htruthy)

/-! ### The echo -/

/-- **A filter selects what its hits show** exactly when every field it can name stands for one text. -/
theorem filter_echo_iff (float : String → Flt) (C : Crypto) (lower : String → String) (doc : Doc) (r : Ranked)
    (hit : ShownHit) (h : hydrateDoc float C doc r = .ok hit) :
    ∃ u, unsealContentFields float C doc = .ok u ∧
      (Echoed float C lower doc hit ↔ OneText (titleOf u (filterContext float u)) ∧
        OneDescription u (filterContext float u) ∧ TagsStated u (filterContext float u)) := by
  obtain ⟨d, hd, rfl⟩ := Mantle.map_ok h
  obtain ⟨u, hu, hkept⟩ := decryptArtifactContent_ok hd
  refine ⟨u, hu, ?_⟩
  have hget : ∀ k, k ∉ bodyFields → d.get k = u.get k := by
    intro k hk
    unfold Doc.get
    rw [hkept k hk]
  have hctx : filterContext float d = filterContext float u := by
    unfold filterContext
    rw [hget "context" (by decide)]
  have htitle : titleOf d (filterContext float d) = titleOf u (filterContext float u) := by
    unfold titleOf
    rw [hctx, hget "title" (by decide), hget "name" (by decide)]
  have hselects : ∀ v, (Selects float C lower "title" v doc ↔ v ∈ asList (titleOf u (filterContext float u))) ∧
      (Selects float C lower "description" v doc ↔ v ∈ asList (descriptionOf u (filterContext float u))) := by
    refine fun v => ⟨(selects_iff (fun _ => rfl) rfl hu).trans ?_, (selects_iff (fun _ => rfl) rfl hu).trans ?_⟩
    · simp only [Except.ok.injEq, exists_eq_left']
    · simp only [Except.ok.injEq, exists_eq_left']
  have htags : ∀ v, Selects float C lower "tags" v doc ↔
      ∃ x, tagsOf u (filterContext float u) = .ok x ∧ v ∈ asList x :=
    fun v => (selects_iff (fun _ => rfl) rfl hu).trans Iff.rfl
  unfold Echoed
  dsimp only
  rw [← oneText_iff, ← oneDescription_iff, ← tagsStated_iff, htitle, hctx]
  simp only [fun v => (hselects v).1, fun v => (hselects v).2, htags, forall_and]

end Agreement

def offeredDoc : Doc :=
  [("id", .str "plan"), ("context", .dict [(.str "title", .str "Plan")]), ("description", .str "An offer")]

def offeredRank : Ranked := ⟨"plan", none, none, none, none⟩

theorem offeredDoc_hydrates : ∃ hit, hydrateDoc flatFloat markCipher offeredDoc offeredRank = .ok hit ∧
    hit.description = "" := ⟨_, rfl, rfl⟩

theorem filter_echo_iff_offered : ∃ hit u, hydrateDoc flatFloat markCipher offeredDoc offeredRank = .ok hit ∧
    (Echoed flatFloat markCipher id offeredDoc hit ↔ OneText (titleOf u (filterContext flatFloat u)) ∧
      OneDescription u (filterContext flatFloat u) ∧ TagsStated u (filterContext flatFloat u)) := by
  obtain ⟨hit, h, -⟩ := offeredDoc_hydrates
  obtain ⟨u, -, hiff⟩ := filter_echo_iff flatFloat markCipher id offeredDoc offeredRank hit h
  exact ⟨hit, u, h, hiff⟩

theorem selected_description_not_shown : ¬∀ (float : String → Flt) (C : Crypto) (lower : String → String) (doc : Doc)
    (r : Ranked) (hit : ShownHit), hydrateDoc float C doc r = .ok hit → Echoed float C lower doc hit := by
  intro hall
  obtain ⟨hit, h, hshown⟩ := offeredDoc_hydrates
  have hecho := ((hall _ _ id _ _ hit h "An offer").2.1).mp
    ((selects_iff (fun _ => rfl) rfl (show unsealContentFields flatFloat markCipher offeredDoc = .ok offeredDoc from rfl)).mpr
      ⟨.str "An offer", rfl, List.mem_singleton_self _⟩)
  rw [hshown] at hecho
  exact absurd hecho (by decide)

end Recall

end Mantle
