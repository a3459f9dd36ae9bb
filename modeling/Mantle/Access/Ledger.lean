import Mantle.Access.Commons

/-!
# Mantle.Access.Ledger — what the grants that are no allow may add

Eight functions read the ledger, each in its own way.  Five of them lose nothing by a grant whose effect is not
`allow`; three ask for the bit and not for the effect.
-/

namespace Mantle

open Walk Relation

/-! ### The functions that read the bits -/

/-- `_check_grant_permission`; no resource is `""`. -/
def checkGrantPermission (grants : List Grant) (action rid : String) : Bool :=
  grants.any fun g => !g.isDeny && (Action.ofName action).any g.flag &&
    (decide (rid = "") || g.resourceId.eqStr rid)

section Bits

variable (now : Val → Bool) (db : Store) (user : String)

/-- `archive_artifact`: `none` is its `False`, else the write behind its `True`. -/
def archiveArtifact (id : String) : Except AccessErr (Option Act) :=
  match db.vertex.lookup id with
  | none => .ok none
  | some r =>
    match (r.doc.val.get "collection_id").asStr with
    | none => .ok none
    | some parent =>
      if parent = "" then .ok none
      else
        (getActiveGrantsForPrincipalResource now db user parent).map fun grants =>
          if grants.any fun g => g.flag .delete then
            some (.putArtifact (r.doc.val.set "state" (.str "archived")) true false)
          else none

def userCanReadCollection (cid : String) : Except AccessErr Bool :=
  match docOf db cid with
  | none => .ok false
  | some _ =>
    (getActiveGrantsForPrincipalResource now db user cid).map fun grants =>
      grants.any fun g => g.flag .read

end Bits

/-! ### Cutting the ledger -/

def normalizedEffect (d : Doc) : String :=
  let effect := normText ((((d.find? "effect").getD (.str "allow")).orElse (.str "")).pyStr)
  if effect = "" then "allow" else effect

def VRow.nonAllow (r : VRow) : Bool :=
  r.isGrant && (r.doc.val.get "state").eqStr "active" && decide (normalizedEffect r.doc.val ≠ "allow")

/-- The later store is the earlier one with these grants deleted, or no more active. -/
structure LedgerCut (db db' : Store) : Prop where
  edge : db'.edge = db.edge
  kept : ∀ id, (∀ r, db.vertex.lookup id = some r → r.nonAllow = false) →
    db'.vertex.lookup id = db.vertex.lookup id
  cut : ∀ id r r', db.vertex.lookup id = some r → r.nonAllow = true →
    db'.vertex.lookup id = some r' → r'.ct = r.ct ∧
      ∃ state, r'.doc.val = r.doc.val.set "state" state ∧ state.eqStr "active" = false

/-! ### Effects -/

theorem normalizedEffect_ofDoc {d : Doc} {g : Grant} (h : Grant.ofDoc d = .ok g) :
    g.effect = normalizedEffect d := by
  unfold Grant.ofDoc at h
  unfold normalizedEffect
  generalize (d.find? "effect").getD (.str "allow") = v at h ⊢
  cases v with
  | str s =>
    cases h
    by_cases hs : s = ""
    · subst hs
      rfl
    · simp [Val.orElse, Val.truthy, hs]
  | _ =>
    dsimp only at h
    unfold Val.orElse
    split_ifs at h ⊢ with ht
    · cases h
    · cases h
      rfl

theorem isAllow_ofDoc {d : Doc} {g : Grant} (h : Grant.ofDoc d = .ok g) :
    g.isAllow = decide (normalizedEffect d = "allow") := by
  unfold Grant.isAllow
  rw [normalizedEffect_ofDoc h]

theorem normalizedEffect_docMask {d : Doc} (h : (docMask d).isAllow = true) :
    normalizedEffect d = "allow" := by
  have h' : normText (((d.get "effect").orElse (.str "")).pyStr) = "allow" := by simpa [docMask] using h
  unfold normalizedEffect
  unfold Doc.get at h'
  cases hf : d.find? "effect" with
  | none =>
    rw [hf] at h'
    exact absurd h' (by decide)
  | some v =>
    rw [hf] at h'
    simp only [Option.getD_some] at h' ⊢
    rw [h', if_neg (by decide)]

/-! ### What is left of the ledger -/

section Cut

variable {now : Val → Bool} {db db' : Store} (h : LedgerCut db db')
include h

theorem LedgerCut.grantAt_iff {id : String} {d : Doc} (hact : (d.get "state").eqStr "active" = true) :
    grantAt db' id = some d ↔ grantAt db id = some d ∧ normalizedEffect d = "allow" := by
  unfold grantAt
  cases hr : db.vertex.lookup id with
  | none =>
    rw [h.kept id (by simp [hr]), hr]
    simp
  | some r =>
    by_cases hn : r.nonAllow = true
    · constructor
      · intro h'
        obtain ⟨r', hr', h'⟩ := Option.bind_eq_some_iff.mp h'
        obtain ⟨-, state, hdoc, hstate⟩ := h.cut id r r' hr hn hr'
        simp only [Option.ite_none_right_eq_some, Option.some.injEq] at h'
        rw [← h'.2, hdoc, Doc.get_set_self, hstate] at hact
        cases hact
      · rintro ⟨h', hallow⟩
        simp only [Option.bind_some, Option.ite_none_right_eq_some, Option.some.injEq] at h'
        obtain ⟨-, rfl⟩ := h'
        simp [VRow.nonAllow, hallow] at hn
    · rw [Bool.not_eq_true] at hn
      rw [h.kept id (by simpa [hr] using hn), hr]
      constructor
      · intro h'
        refine ⟨h', ?_⟩
        simp only [Option.bind_some, Option.ite_none_right_eq_some, Option.some.injEq] at h'
        obtain ⟨hg, rfl⟩ := h'
        simpa [VRow.nonAllow, hg, hact] using hn
      · exact fun h' => h'.1

theorem LedgerCut.mem_grantDocsBy {p : String} {d : Doc} (hact : (d.get "state").eqStr "active" = true) :
    d ∈ grantDocsBy db' p ↔ d ∈ grantDocsBy db p ∧ normalizedEffect d = "allow" := by
  rw [Mantle.mem_grantDocsBy, Mantle.mem_grantDocsBy]
  simp only [h.grantAt_iff hact]
  constructor
  · rintro ⟨hp, id, ⟨hg, hallow⟩, hgr⟩
    exact ⟨⟨hp, id, hg, hgr⟩, hallow⟩
  · rintro ⟨⟨hp, id, hg, hgr⟩, hallow⟩
    exact ⟨hp, id, ⟨hg, hallow⟩, hgr⟩

omit h in
theorem inForce_active {d : Doc} (hd : inForce now d = true) : (d.get "state").eqStr "active" = true := by
  unfold inForce at hd
  rw [Bool.and_eq_true] at hd
  exact hd.1

theorem LedgerCut.mem_filter {p : String} {d : Doc} (test : Doc → Bool) :
    d ∈ (grantDocsBy db' p).filter (fun d => inForce now d && test d) ↔
      d ∈ (grantDocsBy db p).filter (fun d => inForce now d && test d) ∧ normalizedEffect d = "allow" := by
  rw [List.mem_filter, List.mem_filter, Bool.and_eq_true]
  constructor
  · rintro ⟨hd, hf, ht⟩
    obtain ⟨hd', hallow⟩ := (h.mem_grantDocsBy (inForce_active hf)).mp hd
    exact ⟨⟨hd', hf, ht⟩, hallow⟩
  · rintro ⟨⟨hd, hf, ht⟩, hallow⟩
    exact ⟨(h.mem_grantDocsBy (inForce_active hf)).mpr ⟨hd, hallow⟩, hf, ht⟩

theorem LedgerCut.mem_resourceGrantDocs {p rid : String} {d : Doc} :
    d ∈ resourceGrantDocs now db' p rid ↔
      d ∈ resourceGrantDocs now db p rid ∧ normalizedEffect d = "allow" := h.mem_filter _

theorem LedgerCut.mem_userGrantDocs {p : String} {d : Doc} :
    d ∈ userGrantDocs now db' p ↔ d ∈ userGrantDocs now db p ∧ normalizedEffect d = "allow" :=
  h.mem_filter _

theorem LedgerCut.mem_activeGrantDocs {d : Doc} :
    d ∈ activeGrantDocs now db' ↔ d ∈ activeGrantDocs now db ∧ normalizedEffect d = "allow" := by
  rw [Mantle.mem_activeGrantDocs, Mantle.mem_activeGrantDocs]
  constructor
  · rintro ⟨id, hg, hf⟩
    obtain ⟨hg', hallow⟩ := (h.grantAt_iff (inForce_active hf)).mp hg
    exact ⟨⟨id, hg', hf⟩, hallow⟩
  · rintro ⟨⟨id, hg, hf⟩, hallow⟩
    exact ⟨id, (h.grantAt_iff (inForce_active hf)).mpr ⟨hg, hallow⟩, hf⟩

/-! ### What else the functions read -/

theorem LedgerCut.originStep (a : Action) : OriginStep db' a = OriginStep db a := by
  unfold OriginStep
  rw [h.edge]

theorem LedgerCut.conductingChildren (a : Action) :
    Mantle.conductingChildren db' a = Mantle.conductingChildren db a := by
  unfold Mantle.conductingChildren edgesOf labelled
  rw [h.edge]

theorem LedgerCut.conductingParent (a : Action) :
    Mantle.conductingParent db' a = Mantle.conductingParent db a := by
  unfold Mantle.conductingParent getOriginParent edgesOf labelled
  rw [h.edge]

theorem LedgerCut.collectionStep {u v : String} : CollectionStep db' u v ↔ CollectionStep db u v := by
  have hct : ∀ r : VRow, r.ct.eqStr collectionContentType = true → r.nonAllow = false := by
    intro r hr
    have hg : r.isGrant = false := by
      unfold VRow.isGrant
      rw [eqStr_iff.mp hr]
      decide
    simp [VRow.nonAllow, hg]
  unfold CollectionStep
  rw [h.edge]
  refine and_congr_left fun _ => ?_
  constructor
  · rintro ⟨r', hr', hc⟩
    cases hr : db.vertex.lookup v with
    | none =>
      rw [h.kept v (by simp [hr]), hr] at hr'
      cases hr'
    | some r =>
      by_cases hn : r.nonAllow = true
      · obtain ⟨hcut, -⟩ := h.cut v r r' hr hn hr'
        rw [hcut] at hc
        rw [hct r hc] at hn
        cases hn
      · rw [h.kept v (by simpa [hr] using hn), hr] at hr'
        exact ⟨r', hr', hc⟩
  · rintro ⟨r, hr, hc⟩
    exact ⟨r, by rw [h.kept v (by simpa [hr] using hct r hc), hr], hc⟩

theorem LedgerCut.doc {x : String} {doc : Doc} (hstands : db.Has x → db'.Has x)
    (hdoc : docOf db x = some doc) : ∃ doc', docOf db' x = some doc' ∧
      ∀ k, k ≠ "state" → doc'.get k = doc.get k := by
  unfold docOf at hdoc ⊢
  obtain ⟨r, hr, hdoc⟩ := Option.bind_eq_some_iff.mp hdoc
  by_cases hn : r.nonAllow = true
  · obtain ⟨r', hr'⟩ := Option.isSome_iff_exists.mp (hstands (by unfold Store.Has; rw [hr]; rfl))
    obtain ⟨-, state, hset, -⟩ := h.cut x r r' hr hn hr'
    simp only [Option.ite_none_left_eq_some, Option.some.injEq] at hdoc
    obtain ⟨-, rfl⟩ := hdoc
    refine ⟨r'.doc.val, ?_, fun k hk => by rw [hset, Doc.get_set_of_ne _ _ hk]⟩
    rw [hr', Option.bind_some, if_neg]
    rw [hset]
    cases r.doc.val with
    | nil => simp [Doc.set]
    | cons e d =>
      unfold Doc.set
      split_ifs <;> simp
  · rw [h.kept x (by simpa [hr] using hn), hr]
    exact ⟨doc, hdoc, fun _ _ => rfl⟩

/-! ### The functions that ask for an allow -/

theorem LedgerCut.checkAllows {p rid : String} {a : Action} (hc : CheckAllows now db p a rid) :
    CheckAllows now db' p a rid := by
  obtain ⟨d, hd, g, hg, hallow, hflag⟩ := hc
  refine ⟨d, h.mem_resourceGrantDocs.mpr ⟨hd, ?_⟩, g, hg, hallow, hflag⟩
  rw [isAllow_ofDoc hg] at hallow
  simpa using hallow

theorem LedgerCut.checkAllows_of {p rid : String} {a : Action} (hc : CheckAllows now db' p a rid) :
    CheckAllows now db p a rid := by
  obtain ⟨d, hd, hg⟩ := hc
  exact ⟨d, (h.mem_resourceGrantDocs.mp hd).1, hg⟩

theorem LedgerCut.not_checkDenies (p rid : String) (a : Action) : ¬CheckDenies now db' p a rid := by
  rintro ⟨d, hd, g, hg, hdeny, -⟩
  have hallow := (h.mem_resourceGrantDocs.mp hd).2
  rw [← normalizedEffect_ofDoc hg] at hallow
  unfold Grant.isDeny at hdeny
  rw [hallow] at hdeny
  exact absurd hdeny (by decide)

theorem LedgerCut.checkReads {p rid : String} (hr : CheckReads now db p rid) :
    CheckReads now db' p rid :=
  fun d hd => hr d (h.mem_resourceGrantDocs.mp hd).1

theorem LedgerCut.mem_activeCollections {p rid : String}
    (hr : rid ∈ getActiveCollectionIdsForUser now db p) :
    rid ∈ getActiveCollectionIdsForUser now db' p := by
  unfold getActiveCollectionIdsForUser at hr ⊢
  simp only [List.mem_map, List.mem_filter, List.mem_filterMap, Bool.and_eq_true, decide_eq_true_eq,
    Option.ite_none_right_eq_some, Option.some.injEq, Prod.mk.injEq, Prod.exists] at hr ⊢
  obtain ⟨_, m, ⟨⟨d, hd, hres, rfl, rfl⟩, hallow, hdeny⟩, rfl⟩ := hr
  have heffect : normalizedEffect d = "allow" := by
    unfold Mask.allows at hallow
    rw [Bool.and_eq_true] at hallow
    exact normalizedEffect_docMask hallow.1
  refine ⟨_, _, ⟨⟨d, h.mem_userGrantDocs.mpr ⟨hd, heffect⟩, hres, rfl, rfl⟩, hallow, ?_⟩, rfl⟩
  rintro ⟨_, m, ⟨⟨d', hd', hres', rfl, rfl⟩, hd''⟩, hrid⟩
  exact hdeny ⟨_, _, ⟨⟨d', (h.mem_userGrantDocs.mp hd').1, hres', rfl, rfl⟩, hd''⟩, hrid⟩

theorem LedgerCut.inCone {p : String} {doc : Doc} (hc : Mantle.inCone now db p doc = true) :
    Mantle.inCone now db' p doc = true := by
  by_cases hp : p = ""
  · subst hp
    simp [Mantle.inCone, reachableCollections] at hc
  · rw [inCone_iff hp] at hc ⊢
    obtain ⟨rid, hrid, c, hline, hc⟩ := hc
    refine ⟨rid, h.mem_activeCollections hrid, c, ?_, hc⟩
    exact ReflTransGen.mono (fun _ _ => h.collectionStep.mpr) _ _ hline

theorem LedgerCut.accepts {p x action : String} (hstands : db.Has x → db'.Has x)
    (hacc : Accepts now db p x action) : Accepts now db' p x action := by
  cases ha : Action.ofName action with
  | none =>
    obtain ⟨held, hheld⟩ := hacc
    unfold checkAccess at hheld
    rw [ha] at hheld
    cases hheld
  | some a =>
    obtain rfl := Action.name_of_ofName ha
    cases hdoc : docOf db x with
    | none =>
      obtain ⟨held, hheld⟩ := hacc
      unfold checkAccess at hheld
      simp [ha, hdoc] at hheld
    | some doc =>
      by_cases hp : p = ""
      · obtain ⟨held, hheld⟩ := hacc
        unfold checkAccess at hheld
        simp [ha, hdoc, hp] at hheld
      · obtain ⟨doc', hdoc', hget⟩ := h.doc hstands hdoc
        have hroot : rootIn doc' x = rootIn doc x := by
          unfold rootIn
          rw [hget _ (by decide)]
        have hchain : originChain db' x a (some (rootIn doc' x)) =
            originChain db x a (some (rootIn doc x)) := by
          have hc' : chainRoot db' x (some (rootIn doc x)) = rootIn doc x := hroot ▸ chainRoot_rootIn hdoc'
          unfold originChain
          rw [hroot, chainRoot_rootIn hdoc, hc', h.conductingParent]
        rw [accepts_iff hdoc hp] at hacc
        rw [accepts_iff hdoc' hp]
        unfold LineAdmits
        rw [hchain]
        rcases hacc with ⟨pre, r, post, hitems, hallow, hclear⟩ | ⟨hread, hpub, hend, hsilent⟩
        · refine .inl ⟨pre, r, post, hitems, h.checkAllows hallow, ?_⟩
          exact fun q hq => ⟨h.checkReads (hclear q hq).1, h.not_checkDenies p q a⟩
        · refine .inr ⟨hread, ?_, hend, ?_⟩
          · have hcone : Mantle.inCone now db' publicPrincipal doc = true := h.inCone hpub
            have hground : groundingOf doc' = groundingOf doc := by
              unfold groundingOf
              rw [hget _ (by decide), hget _ (by decide)]
            have hid : idText doc' = idText doc := by
              unfold idText
              rw [hget _ (by decide)]
            rw [isMadePublic_eq]
            unfold Mantle.inCone at hcone ⊢
            rw [hground, hid]
            exact hcone
          · intro q hq
            obtain ⟨hr, -, hno⟩ := hsilent q hq
            exact ⟨h.checkReads hr, h.not_checkDenies p q a, fun hc => hno (h.checkAllows_of hc)⟩

theorem LedgerCut.holdsAllow_iff {p rid : String} {a : Action} :
    HoldsAllow now db' p a rid ↔ HoldsAllow now db p a rid := by
  constructor
  · rintro ⟨d, hd, hg⟩
    exact ⟨d, (h.mem_userGrantDocs.mp hd).1, hg⟩
  · rintro ⟨d, hd, g, hg, hres, hallow⟩
    refine ⟨d, h.mem_userGrantDocs.mpr ⟨hd, ?_⟩, g, hg, hres, hallow⟩
    have hmask : g.isAllow = true := (Bool.and_eq_true _ _ ▸ hallow : g.mask.isAllow ∧ g.mask.carries a).1
    rw [isAllow_ofDoc hg] at hmask
    simpa using hmask

theorem LedgerCut.not_holdsDeny (p rid : String) (a : Action) : ¬HoldsDeny now db' p a rid := by
  rintro ⟨d, hd, g, hg, -, hdeny, -⟩
  have hallow : g.mask.isAllow = true := by
    change g.isAllow = true
    rw [isAllow_ofDoc hg]
    simpa using (h.mem_userGrantDocs.mp hd).2
  unfold Mask.isDeny at hdeny
  rw [hallow] at hdeny
  cases hdeny

theorem LedgerCut.descendants {a : Action} {seeds seeds' below : List String}
    (hbelow : listOriginDescendants db seeds a = .ok below) (hseeds : ∀ s ∈ seeds', s ∈ seeds) :
    ∃ below', listOriginDescendants db' seeds' a = .ok below' := by
  have hfuel : (db.edge.toPairs.map fun e => e.2.dst).length < db.edge.entries.length + 1 := by
    simp [Table.toPairs]
  have hspec := mem_flood_iff (fun u v => child_mem_dsts) hfuel hbelow
  unfold listOriginDescendants
  rw [h.conductingChildren]
  refine flood_readable (P := fun u => ∃ s ∈ seeds, ReflTransGen (Child (Mantle.conductingChildren db a)) s u)
    ?_ ?_ _ _ _ fun s hs => ⟨s, hseeds s hs, .refl⟩
  · exact fun u hu => (hspec u).2 ((hspec u).1.mpr hu)
  · rintro u v ⟨s, hs, hu⟩ huv
    exact ⟨s, hs, hu.tail huv⟩

theorem LedgerCut.resolve {p action x : String} {ids : List String}
    (hres : Mantle.resolve now db p action = .ok ids) (hx : x ∈ ids) :
    ∃ ids', Mantle.resolve now db' p action = .ok ids' ∧ x ∈ ids' := by
  cases ha : Action.ofName action with
  | none =>
    unfold Mantle.resolve at hres
    rw [ha] at hres
    cases hres
    cases hx
  | some a =>
    obtain rfl := Action.name_of_ofName ha
    have hmem := (mem_resolve_iff hres x).mp hx
    have hok : ∃ ids', Mantle.resolve now db' p a.name = .ok ids' := by
      unfold Mantle.resolve at hres ⊢
      rw [ha] at hres ⊢
      simp only [bind, Except.bind] at hres ⊢
      obtain ⟨grants, hg, hres⟩ := bind_ok hres
      have hread : ∀ d ∈ userGrantDocs now db' p, ∃ g, Grant.ofDoc d = .ok g :=
        fun d hd => mapM_isOk.mp ⟨grants, hg⟩ d (h.mem_userGrantDocs.mp hd).1
      obtain ⟨grants', hg'⟩ := mapM_isOk.mpr hread
      have hg'' : getActiveGrantsForGrantee now db' p = .ok grants' := hg'
      have hseeds : ∀ s, s ∈ seedsOf grants' (fun m => m.allows a) ↔
          s ∈ seedsOf grants (fun m => m.allows a) := by
        intro s
        rw [mem_allowSeeds hg'', mem_allowSeeds hg, h.holdsAllow_iff]
      have hdenied : seedsOf grants' (fun m => m.isDeny && m.carries a) = [] := by
        rw [List.eq_nil_iff_forall_not_mem]
        exact fun s hs => h.not_holdsDeny p s a ((mem_denySeeds hg'' s).mp hs)
      rw [hg'']
      dsimp only at hres ⊢
      by_cases hempty : (seedsOf grants' fun m => m.allows a).isEmpty = true
      · rw [if_pos hempty]
        exact ⟨[], rfl⟩
      · rw [if_neg hempty]
        rw [if_neg] at hres
        · cases hb : listOriginDescendants db (seedsOf grants fun m => m.allows a) a with
          | error e =>
            rw [hb] at hres
            cases hres
          | ok below =>
            obtain ⟨below', hb'⟩ := h.descendants hb fun s hs => (hseeds s).mp hs
            rw [hb', hdenied]
            simp only [subtractDenied, List.isEmpty_nil, if_true, reach_self]
            exact ⟨_, rfl⟩
        · intro hnil
          apply hempty
          rw [List.isEmpty_iff, List.eq_nil_iff_forall_not_mem] at hnil ⊢
          exact fun s hs => hnil s ((hseeds s).mp hs)
    obtain ⟨ids', hids'⟩ := hok
    refine ⟨ids', hids', (mem_resolve_iff hids' x).mpr ⟨?_, ?_⟩⟩
    · obtain ⟨s, hs, hbelow⟩ := hmem.1
      refine ⟨s, h.holdsAllow_iff.mpr hs, ?_⟩
      unfold Below
      rw [h.originStep]
      exact hbelow
    · rintro ⟨s, hs, -⟩
      exact h.not_holdsDeny p s a hs

theorem LedgerCut.collectionsBelow {rid x : String} :
    x ∈ rid :: Mantle.collectionsBelow db' rid ↔ x ∈ rid :: Mantle.collectionsBelow db rid := by
  rw [mem_collectionsBelow, mem_collectionsBelow]
  constructor
  · exact ReflTransGen.mono (fun _ _ => h.collectionStep.mp) _ _
  · exact ReflTransGen.mono (fun _ _ => h.collectionStep.mpr) _ _

theorem LedgerCut.mem_cones {x : String} {test : Doc → Bool} :
    x ∈ ((activeGrantDocs now db').filter test).flatMap (resourceCone db') ↔
      ∃ d ∈ (activeGrantDocs now db).filter test, normalizedEffect d = "allow" ∧
        x ∈ resourceCone db d := by
  simp only [List.mem_flatMap, List.mem_filter, h.mem_activeGrantDocs]
  unfold resourceCone
  simp only [h.collectionsBelow]
  constructor
  · rintro ⟨d, ⟨⟨hd, hallow⟩, ht⟩, hx⟩
    exact ⟨d, ⟨hd, ht⟩, hallow, hx⟩
  · rintro ⟨d, ⟨hd, ht⟩, hallow, hx⟩
    exact ⟨d, ⟨⟨hd, hallow⟩, ht⟩, hx⟩

theorem LedgerCut.invokable {p x : String} (hx : x ∈ invokableResources now db p) :
    x ∈ invokableResources now db' p := by
  unfold invokableResources invokeDocs at hx ⊢
  by_cases hp : p = ""
  · rw [if_pos hp] at hx
    cases hx
  · rw [if_neg hp] at hx ⊢
    simp only [List.filter_filter, List.mem_filter, decide_eq_true_eq] at hx ⊢
    rw [h.mem_cones, h.mem_cones]
    obtain ⟨hin, hout⟩ := hx
    refine ⟨?_, ?_⟩
    · obtain ⟨d, hd, hx⟩ := List.mem_flatMap.mp hin
      refine ⟨d, hd, normalizedEffect_docMask ?_, hx⟩
      have ht := (List.mem_filter.mp hd).2
      rw [Bool.and_eq_true, beq_iff_eq] at ht
      exact ht.1
    · rintro ⟨d, hd, -, hx⟩
      exact hout (List.mem_flatMap.mpr ⟨d, hd, hx⟩)

theorem LedgerCut.canRead {p : String} {doc : Doc} (hc : Mantle.canRead now db doc p = true) :
    Mantle.canRead now db' doc p = true := by
  have hgated : ∀ g, g ∈ gatedCollections now db' → g ∈ gatedCollections now db := by
    intro g hg
    unfold gatedCollections at hg ⊢
    obtain ⟨d, hd, -, hx⟩ := h.mem_cones.mp hg
    exact List.mem_flatMap.mpr ⟨d, hd, hx⟩
  unfold Mantle.canRead isPublic at hc ⊢
  simp only [Bool.and_eq_true, Bool.or_eq_true] at hc ⊢
  refine ⟨hc.1, ?_⟩
  rcases hc.2 with hpub | hcone
  · refine .inl ?_
    cases hg : groundingOf doc with
    | none => rfl
    | some g =>
      rw [hg] at hpub
      simp only [Bool.or_eq_true, decide_eq_true_eq] at hpub ⊢
      rcases hpub with hfree | hmade
      · exact .inl fun hg' => hfree (hgated g hg')
      · exact .inr (h.inCone hmade)
  · exact .inr (h.inCone hcone)

/-! ### The functions that ask for the bit -/

theorem LedgerCut.resourceGrants {p rid : String} {grants : List Grant}
    (hg : getActiveGrantsForPrincipalResource now db p rid = .ok grants) :
    ∃ grants', getActiveGrantsForPrincipalResource now db' p rid = .ok grants' ∧
      ∀ g, g ∈ grants' ↔ g ∈ grants ∧ g.isAllow = true := by
  have hread : ∀ d ∈ resourceGrantDocs now db' p rid, ∃ g, Grant.ofDoc d = .ok g :=
    fun d hd => mapM_isOk.mp ⟨grants, hg⟩ d (h.mem_resourceGrantDocs.mp hd).1
  obtain ⟨grants', hg'⟩ := mapM_isOk.mpr hread
  refine ⟨grants', hg', ?_⟩
  intro g
  rw [mapM_ok hg' g, mapM_ok hg g]
  simp only [h.mem_resourceGrantDocs]
  constructor
  · rintro ⟨d, ⟨hd, hallow⟩, hgd⟩
    exact ⟨⟨d, hd, hgd⟩, by rw [isAllow_ofDoc hgd, hallow]; rfl⟩
  · rintro ⟨⟨d, hd, hgd⟩, hallow⟩
    rw [isAllow_ofDoc hgd] at hallow
    exact ⟨d, ⟨hd, by simpa using hallow⟩, hgd⟩

end Cut

def BitBeside (grants : List Grant) (bit : Grant → Bool) : Prop :=
  (∃ g ∈ grants, g.isAllow = false ∧ bit g = true) → ∃ g ∈ grants, g.isAllow = true ∧ bit g = true

theorem bitBeside_iff {grants grants' : List Grant} {bit : Grant → Bool}
    (h : ∀ g, g ∈ grants' ↔ g ∈ grants ∧ g.isAllow = true) :
    (grants.any bit = true → grants'.any bit = true) ↔ BitBeside grants bit := by
  have hany : grants'.any bit = true ↔ ∃ g ∈ grants, g.isAllow = true ∧ bit g = true := by
    rw [List.any_eq_true]
    simp only [h, and_assoc]
  rw [hany, List.any_eq_true]
  unfold BitBeside
  constructor
  · rintro hmono ⟨g, hg, -, hbit⟩
    exact hmono ⟨g, hg, hbit⟩
  · rintro hbeside ⟨g, hg, hbit⟩
    cases hallow : g.isAllow with
    | true => exact ⟨g, hg, hallow, hbit⟩
    | false => exact hbeside ⟨g, hg, hallow, hbit⟩

section Answers

variable (now : Val → Bool) (db db' : Store) (grants : List Grant) (p action x : String)

/-- No positive answer is lost by the cut. -/
structure AddsNothing : Prop where
  resolve : ∀ ids y, Mantle.resolve now db p action = .ok ids → y ∈ ids →
    ∃ ids', Mantle.resolve now db' p action = .ok ids' ∧ y ∈ ids'
  checkAccess : Accepts now db p x action → Accepts now db' p x action
  checkGrantPermission : Mantle.checkGrantPermission grants action x = true →
    Mantle.checkGrantPermission (grants.filter Grant.isAllow) action x = true
  activeCollections : ∀ y ∈ getActiveCollectionIdsForUser now db p,
    y ∈ getActiveCollectionIdsForUser now db' p
  invokable : ∀ y ∈ invokableResources now db p, y ∈ invokableResources now db' p
  archive : (∃ act, archiveArtifact now db p x = .ok (some act)) →
    ∃ act, archiveArtifact now db' p x = .ok (some act)
  canRead : ∀ doc, Mantle.canRead now db doc p = true → Mantle.canRead now db' doc p = true
  userCanRead : userCanReadCollection now db p x = .ok true →
    userCanReadCollection now db' p x = .ok true

/-- The bit `_check_grant_permission` looks for. -/
def permits (g : Grant) : Bool :=
  !g.isDeny && (Action.ofName action).any g.flag && (decide (x = "") || g.resourceId.eqStr x)

/-- Wherever one of the three functions meets the bit on a grant that is no allow, it meets it on one
that is. -/
structure BitsBeside : Prop where
  permission : BitBeside grants (permits action x)
  archive : ∀ r parent found, db.vertex.lookup x = some r →
    (r.doc.val.get "collection_id").asStr = some parent → parent ≠ "" →
    getActiveGrantsForPrincipalResource now db p parent = .ok found →
    BitBeside found fun g => g.flag .delete
  userCanRead : ∀ doc found, docOf db x = some doc →
    getActiveGrantsForPrincipalResource now db p x = .ok found → BitBeside found fun g => g.flag .read

end Answers

section Three

variable {now : Val → Bool} {db db' : Store} {p x : String} (h : LedgerCut db db')
  (hstands : db.Has x → db'.Has x)
include h hstands

theorem LedgerCut.archive_iff :
    ((∃ act, archiveArtifact now db p x = .ok (some act)) →
      ∃ act, archiveArtifact now db' p x = .ok (some act)) ↔
      ∀ r parent found, db.vertex.lookup x = some r →
        (r.doc.val.get "collection_id").asStr = some parent → parent ≠ "" →
        getActiveGrantsForPrincipalResource now db p parent = .ok found →
        BitBeside found fun g => g.flag .delete := by
  have hpos : ∀ (db₀ : Store) (r : VRow) (parent : String) (found : List Grant),
      db₀.vertex.lookup x = some r → (r.doc.val.get "collection_id").asStr = some parent → parent ≠ "" →
      getActiveGrantsForPrincipalResource now db₀ p parent = .ok found →
      ((∃ act, archiveArtifact now db₀ p x = .ok (some act)) ↔
        found.any (fun g => g.flag .delete) = true) := by
    intro db₀ r parent found hr hc hne hg
    unfold archiveArtifact
    simp only [hr, hc, if_neg hne, hg, Except.map]
    by_cases hany : found.any (fun g => g.flag .delete) = true
    · simp only [hany, if_true]
      exact ⟨fun _ => trivial, fun _ => ⟨_, rfl⟩⟩
    · rw [if_neg hany]
      constructor
      · rintro ⟨act, hact⟩
        cases hact
      · exact fun hb => absurd hb hany
  have hrow : ∀ r, db.vertex.lookup x = some r → ∃ r', db'.vertex.lookup x = some r' ∧
      r'.doc.val.get "collection_id" = r.doc.val.get "collection_id" := by
    intro r hr
    by_cases hn : r.nonAllow = true
    · obtain ⟨r', hr'⟩ := Option.isSome_iff_exists.mp (hstands (by unfold Store.Has; rw [hr]; rfl))
      obtain ⟨-, state, hset, -⟩ := h.cut x r r' hr hn hr'
      exact ⟨r', hr', by rw [hset, Doc.get_set_of_ne _ _ (by decide)]⟩
    · exact ⟨r, by rw [h.kept x (by simpa [hr] using hn), hr], rfl⟩
  constructor
  · intro hmono r parent found hr hc hne hg
    obtain ⟨r', hr', hsame⟩ := hrow r hr
    obtain ⟨found', hg', hmem⟩ := h.resourceGrants hg
    rw [hpos db r parent found hr hc hne hg,
      hpos db' r' parent found' hr' (hsame ▸ hc) hne hg', bitBeside_iff hmem] at hmono
    exact hmono
  · rintro hbeside ⟨act, hact⟩
    unfold archiveArtifact at hact
    cases hr : db.vertex.lookup x with
    | none =>
      rw [hr] at hact
      cases hact
    | some r =>
      rw [hr] at hact
      dsimp only at hact
      cases hc : (r.doc.val.get "collection_id").asStr with
      | none =>
        rw [hc] at hact
        cases hact
      | some parent =>
        rw [hc] at hact
        dsimp only at hact
        by_cases hne : parent = ""
        · rw [if_pos hne] at hact
          cases hact
        · rw [if_neg hne] at hact
          cases hg : getActiveGrantsForPrincipalResource now db p parent with
          | error e =>
            rw [hg] at hact
            cases hact
          | ok found =>
            obtain ⟨r', hr', hsame⟩ := hrow r hr
            obtain ⟨found', hg', hmem⟩ := h.resourceGrants hg
            rw [hpos db' r' parent found' hr' (hsame ▸ hc) hne hg']
            refine (bitBeside_iff hmem).mpr (hbeside r parent found hr hc hne hg) ?_
            refine (hpos db r parent found hr hc hne hg).mp ⟨act, ?_⟩
            unfold archiveArtifact
            rw [hr]
            dsimp only
            rw [hc]
            dsimp only
            rw [if_neg hne]
            exact hact

theorem LedgerCut.userCanRead_iff :
    (userCanReadCollection now db p x = .ok true → userCanReadCollection now db' p x = .ok true) ↔
      ∀ doc found, docOf db x = some doc →
        getActiveGrantsForPrincipalResource now db p x = .ok found →
        BitBeside found fun g => g.flag .read := by
  have hpos : ∀ (db₀ : Store) (doc : Doc) (found : List Grant), docOf db₀ x = some doc →
      getActiveGrantsForPrincipalResource now db₀ p x = .ok found →
      (userCanReadCollection now db₀ p x = .ok true ↔ found.any (fun g => g.flag .read) = true) := by
    intro db₀ doc found hdoc hg
    unfold userCanReadCollection
    simp only [hdoc, hg, Except.map, Except.ok.injEq]
  constructor
  · intro hmono doc found hdoc hg
    obtain ⟨doc', hdoc', -⟩ := h.doc hstands hdoc
    obtain ⟨found', hg', hmem⟩ := h.resourceGrants hg
    rw [hpos db doc found hdoc hg, hpos db' doc' found' hdoc' hg', bitBeside_iff hmem] at hmono
    exact hmono
  · intro hbeside hread
    cases hdoc : docOf db x with
    | none =>
      unfold userCanReadCollection at hread
      rw [hdoc] at hread
      cases hread
    | some doc =>
      cases hg : getActiveGrantsForPrincipalResource now db p x with
      | error e =>
        unfold userCanReadCollection at hread
        rw [hdoc, hg] at hread
        cases hread
      | ok found =>
        obtain ⟨doc', hdoc', -⟩ := h.doc hstands hdoc
        obtain ⟨found', hg', hmem⟩ := h.resourceGrants hg
        rw [hpos db' doc' found' hdoc' hg']
        exact (bitBeside_iff hmem).mpr (hbeside doc found hdoc hg) ((hpos db doc found hdoc hg).mp hread)

end Three

/-- **Grants that are no allow add nothing**, exactly when none of the three functions meets its bit on
such a grant alone. -/
theorem nonAllow_adds_nothing_iff (now : Val → Bool) {db db' : Store} (h : LedgerCut db db')
    (grants : List Grant) (p action x : String) (hstands : db.Has x → db'.Has x) :
    AddsNothing now db db' grants p action x ↔ BitsBeside now db grants p action x := by
  have hmem : ∀ g, g ∈ grants.filter Grant.isAllow ↔ g ∈ grants ∧ g.isAllow = true :=
    fun g => List.mem_filter
  constructor
  · intro hadds
    exact ⟨(bitBeside_iff hmem).mp hadds.checkGrantPermission,
      (h.archive_iff hstands).mp hadds.archive, (h.userCanRead_iff hstands).mp hadds.userCanRead⟩
  · intro hbeside
    exact
      { resolve := fun ids y hids hy => h.resolve hids hy
        checkAccess := h.accepts hstands
        checkGrantPermission := (bitBeside_iff hmem).mpr hbeside.permission
        activeCollections := fun y hy => h.mem_activeCollections hy
        invokable := fun y hy => h.invokable hy
        archive := (h.archive_iff hstands).mpr hbeside.archive
        canRead := fun doc hdoc => h.canRead hdoc
        userCanRead := (h.userCanRead_iff hstands).mpr hbeside.userCanRead }

def deniedNode : Node :=
  hereNode.run
    [.putArtifact [("id", .str "c"), ("content_type", .str collectionContentType)] true false,
     .putArtifact [("id", .str "x"), ("collection_id", .str "c")] true false,
     .putArtifact ((grantDoc "g" "u" "c" "deny").set "can_delete" (.bool true)) true false]

def deniedCut : Store := { deniedNode.db with vertex := deniedNode.db.vertex.erase "g" }

theorem deniedCut_lookup (id : String) : deniedCut.vertex.lookup id =
    if id = "g" then none else deniedNode.db.vertex.lookup id := by
  unfold deniedCut
  exact Table.lookup_erase_of

theorem ledgerCut_denied : LedgerCut deniedNode.db deniedCut := by
  have hrows : deniedNode.db.vertex.toPairs.all
      (fun e => !e.2.nonAllow || decide (e.1 = "g")) = true := by decide +kernel
  have honly : ∀ id r, deniedNode.db.vertex.lookup id = some r → r.nonAllow = true → id = "g" := by
    intro id r hr hn
    have := List.all_eq_true.mp hrows (id, r) (Table.mem_toPairs.mpr hr)
    simpa [hn] using this
  have hg : (deniedNode.db.vertex.lookup "g").any VRow.nonAllow = true := by decide +kernel
  refine ⟨by unfold deniedCut; rfl, ?_, ?_⟩
  · intro id hid
    have hne : id ≠ "g" := by
      rintro rfl
      cases hr : deniedNode.db.vertex.lookup "g" with
      | none =>
        rw [hr] at hg
        cases hg
      | some r =>
        rw [hr, Option.any_some, hid r hr] at hg
        cases hg
    rw [deniedCut_lookup, if_neg hne]
  · intro id r r' hr hn hr'
    obtain rfl := honly id r hr hn
    rw [deniedCut_lookup, if_pos rfl] at hr'
    cases hr'

theorem deny_lets_archive :
    ¬ ∀ (now : Val → Bool) (db db' : Store) (grants : List Grant) (p action x : String),
      LedgerCut db db' → (db.Has x → db'.Has x) → AddsNothing now db db' grants p action x := by
  intro h
  have hx : deniedCut.Has "x" := by
    unfold Store.Has
    decide +kernel
  have hadds := h (fun _ => true) _ _ [] "u" "delete" "x" ledgerCut_denied fun _ => hx
  have hbefore : ((archiveArtifact (fun _ => true) deniedNode.db "u" "x").toOption.bind id).isSome = true := by
    decide +kernel
  have hafter : ((archiveArtifact (fun _ => true) deniedCut "u" "x").toOption.bind id).isSome = false := by decide +kernel
  obtain ⟨act, hact⟩ := hadds.archive (by
    revert hbefore
    cases archiveArtifact (fun _ => true) deniedNode.db "u" "x" with
    | error e => intro hb; cases hb
    | ok o =>
      cases o with
      | none => intro hb; cases hb
      | some act => exact fun _ => ⟨act, rfl⟩)
  rw [hact] at hafter
  cases hafter

theorem nonAllow_adds_nothing_iff_denied : LedgerCut deniedNode.db deniedCut ∧ deniedCut.Has "c" ∧
    (AddsNothing (fun _ => true) deniedNode.db deniedCut [] "u" "read" "c" ↔
      BitsBeside (fun _ => true) deniedNode.db [] "u" "read" "c") := by
  have hc : deniedCut.Has "c" := by
    unfold Store.Has
    decide +kernel
  exact ⟨ledgerCut_denied, hc,
    nonAllow_adds_nothing_iff (fun _ => true) ledgerCut_denied [] "u" "read" "c" fun _ => hc⟩

end Mantle
