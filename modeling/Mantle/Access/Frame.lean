import Mantle.Access.Gate
import Mantle.Db.Tables

/-!
# Mantle.Access.Frame — when a change of the store does not widen the gate

A store in which what `check_access` reads stands as it did accepts nothing about an old id that the old store refused.
-/

namespace Mantle

open Walk

variable {a : Action} {db : Store} {doc : Doc} {id p rid x : String} {now : Val → Bool} {r : ERow}
  {t t₀ : Trail AccessErr String}

/-! ### What the gate knows -/

def idText (doc : Doc) : String := ((doc.get "id").orElse (.str "")).pyStr

/-- The ids the gate can come by: ids of rows, what their documents name, and containers. -/
def Known (db : Store) (x : String) : Prop :=
  db.Has x ∨
  (∃ id doc, docOf db id = some doc ∧
    (x = rootIn doc id ∨ groundingOf doc = some x ∨ x = idText doc)) ∨
  ∃ key r, db.edge.lookup key = some r ∧ r.label = containsLabel ∧ r.src = x

/-- Two documents of one id the gate cannot tell apart. -/
structure SameView (id : String) (doc doc' : Doc) : Prop where
  root : rootIn doc' id = rootIn doc id
  grounding : groundingOf doc' = groundingOf doc
  idText : idText doc' = Mantle.idText doc

structure SameAuthority (o r : ERow) : Prop where
  origin : r.isOriginEdge = o.isOriginEdge
  conducts : ∀ a, r.conducts a = o.conducts a
  column : r.isOrigin = some 1 → o.isOrigin = some 1

def VRow.isGrant (r : VRow) : Bool := r.ct.eqStr grantContentType

def VRow.isCollection (r : VRow) : Bool := r.ct.eqStr collectionContentType

def grantAt (db : Store) (id : String) : Option Doc :=
  (db.vertex.lookup id).bind fun r => if r.isGrant then some r.doc.val else none

/-- The later store widens nothing the gate reads about the ids of the earlier one. -/
structure GateFrame (db₀ db : Store) : Prop where
  docs : ∀ id doc', db₀.Has id → docOf db id = some doc' →
    ∃ doc, docOf db₀ id = some doc ∧ SameView id doc doc'
  grants : ∀ id, grantAt db id = grantAt db₀ id
  collections : ∀ x r, Known db₀ x → db.vertex.lookup x = some r → r.isCollection = true →
    ∃ r₀, db₀.vertex.lookup x = some r₀ ∧ r₀.isCollection = true
  kept : ∀ key o, db₀.edge.lookup key = some o → o.label = containsLabel → Known db₀ o.dst →
    ∃ r, db.edge.lookup key = some r ∧ r.src = o.src ∧ r.dst = o.dst ∧ r.label = o.label ∧
      SameAuthority o r
  fresh : ∀ key r, db.edge.lookup key = some r → r.label = containsLabel → Known db₀ r.dst →
    r.isOriginEdge = true → ∃ o, db₀.edge.lookup key = some o ∧ r.src = o.src ∧ r.dst = o.dst ∧
      r.label = o.label ∧ SameAuthority o r

/-! ### Parents -/

/-- An origin edge into a node. -/
def IsParent (db : Store) (x : String) (key : EdgeKey) (r : ERow) : Prop :=
  db.edge.lookup key = some r ∧ r.dst = x ∧ r.label = containsLabel ∧ r.isOriginEdge = true

/-- The edges into a node with their keys, in the order they are read. -/
def inbound (db : Store) (x : String) : List (EdgeKey × ERow) :=
  (db.edge.toPairs.filter fun e => Side.inbound.of e.2 = x && e.2.label = containsLabel).insertionSort
    fun a b => a.1 ≤ b.1

theorem mem_inbound {key : EdgeKey} :
    (key, r) ∈ inbound db x ↔ db.edge.lookup key = some r ∧ r.dst = x ∧ r.label = containsLabel := by
  unfold inbound
  simp only [List.mem_insertionSort, List.mem_filter, Table.mem_toPairs, Bool.and_eq_true,
    decide_eq_true_eq]
  rfl

theorem inbound_sorted (db : Store) (x : String) :
    (inbound db x).Pairwise fun a b => a.1 ≤ b.1 := List.pairwise_insertionSort _ _

theorem find_sorted {l : List (EdgeKey × ERow)} {test : EdgeKey × ERow → Bool} {e : EdgeKey × ERow}
    (hl : l.Pairwise fun a b => a.1 ≤ b.1) (h : l.find? test = some e) :
    e ∈ l ∧ test e = true ∧ ∀ f ∈ l, test f = true → e.1 ≤ f.1 := by
  obtain ⟨he, as, bs, rfl, has⟩ := List.find?_eq_some_iff_append.mp h
  refine ⟨by simp, he, ?_⟩
  intro f hf hft
  rcases List.mem_append.mp hf with hf | hf
  · have := has f hf
    simp [hft] at this
  · rcases List.mem_cons.mp hf with rfl | hf
    · exact le_refl _
    · exact List.rel_of_pairwise_cons (List.pairwise_append.mp hl).2.1 hf

theorem getOriginParent_eq (db : Store) (x : String) : getOriginParent db x =
    if (inbound db x).length > edgesOfLimit then .error .edgesTruncated
    else .ok (((inbound db x).find? fun e => e.2.isOriginEdge).map Prod.snd) := by
  have hlab : labelled db .inbound x containsLabel = (inbound db x).map Prod.snd := rfl
  unfold getOriginParent edgesOf
  rw [hlab, List.length_map]
  split_ifs
  · rfl
  · simp only [Except.map, List.find?_map]
    rfl

theorem getOriginParent_some (h : getOriginParent db x = .ok (some r)) :
    ∃ key, IsParent db x key r ∧ ∀ key' r', IsParent db x key' r' → key ≤ key' := by
  rw [getOriginParent_eq] at h
  split_ifs at h
  obtain ⟨⟨key, r'⟩, hf, rfl⟩ := Option.map_eq_some_iff.mp (Except.ok.inj h)
  obtain ⟨hm, ht, hleast⟩ := find_sorted (inbound_sorted db x) hf
  obtain ⟨hk, hd, hl⟩ := mem_inbound.mp hm
  refine ⟨key, ⟨hk, hd, hl, ht⟩, ?_⟩
  rintro key' r'' ⟨hk', hd', hl', ho'⟩
  exact hleast (key', r'') (mem_inbound.mpr ⟨hk', hd', hl'⟩) ho'

theorem getOriginParent_none (h : getOriginParent db x = .ok none) (key : EdgeKey) (r : ERow) :
    ¬IsParent db x key r := by
  rintro ⟨hk, hd, hl, ho⟩
  rw [getOriginParent_eq] at h
  split_ifs at h
  have hf := Option.map_eq_none_iff.mp (Except.ok.inj h)
  exact (List.find?_eq_none.mp hf) (key, r) (mem_inbound.mpr ⟨hk, hd, hl⟩) ho

theorem inbound_keys_nodup (db : Store) (x : String) : ((inbound db x).map Prod.fst).Nodup :=
  ((List.perm_insertionSort _ _).map Prod.fst).nodup_iff.mpr (db.edge.filter_keys _)

section Frame

variable {db₀ db : Store} {x : String}

theorem GateFrame.inbound_length (h : GateFrame db₀ db) (hx : Known db₀ x) :
    (inbound db₀ x).length ≤ (inbound db x).length := by
  have hsub : (inbound db₀ x).map Prod.fst ⊆ (inbound db x).map Prod.fst := by
    intro key hk
    obtain ⟨⟨key', o⟩, hm, rfl⟩ := List.mem_map.mp hk
    obtain ⟨hk', hd, hl⟩ := mem_inbound.mp hm
    obtain ⟨r, hr, -, hrd, hrl, -⟩ := h.kept key' o hk' hl (hd ▸ hx)
    exact List.mem_map.mpr ⟨(key', r), mem_inbound.mpr ⟨hr, hrd.trans hd, hrl.trans hl⟩, rfl⟩
  have := List.subperm_of_subset (inbound_keys_nodup db₀ x) hsub
  simpa using this.length_le

theorem GateFrame.getOriginParent (h : GateFrame db₀ db) (hx : Known db₀ x) {p : Option ERow}
    (hp : Mantle.getOriginParent db x = .ok p) :
    ∃ p₀, Mantle.getOriginParent db₀ x = .ok p₀ ∧
      (p = none ∧ p₀ = none ∨ ∃ r o, p = some r ∧ p₀ = some o ∧ r.src = o.src ∧ SameAuthority o r) := by
  have hlen : ¬(inbound db₀ x).length > edgesOfLimit := by
    intro hgt
    rw [getOriginParent_eq, if_pos (lt_of_lt_of_le hgt (h.inbound_length hx))] at hp
    cases hp
  obtain ⟨p₀, hp₀⟩ : ∃ p₀, Mantle.getOriginParent db₀ x = .ok p₀ :=
    ⟨_, by rw [getOriginParent_eq, if_neg hlen]⟩
  refine ⟨p₀, hp₀, ?_⟩
  have hback : ∀ key o, IsParent db₀ x key o → ∃ r, IsParent db x key r := by
    rintro key o ⟨hk, hd, hl, ho⟩
    obtain ⟨r, hr, -, hrd, hrl, hauth⟩ := h.kept key o hk hl (hd ▸ hx)
    exact ⟨r, hr, hrd.trans hd, hrl.trans hl, hauth.origin.trans ho⟩
  have hforth : ∀ key r, IsParent db x key r →
      ∃ o, IsParent db₀ x key o ∧ r.src = o.src ∧ SameAuthority o r := by
    rintro key r ⟨hk, hd, hl, ho⟩
    obtain ⟨o, hko, hs, hrd, hrl, hauth⟩ := h.fresh key r hk hl (hd ▸ hx) ho
    exact ⟨o, ⟨hko, hrd.symm.trans hd, hrl.symm.trans hl, hauth.origin.symm.trans ho⟩, hs, hauth⟩
  cases p with
  | none =>
    cases p₀ with
    | none => exact .inl ⟨rfl, rfl⟩
    | some o =>
      obtain ⟨key, hkey, -⟩ := getOriginParent_some hp₀
      obtain ⟨r, hr⟩ := hback key o hkey
      exact absurd hr (getOriginParent_none hp key r)
  | some r =>
    obtain ⟨key, hkey, hleast⟩ := getOriginParent_some hp
    obtain ⟨o, ho, hsrc, hauth⟩ := hforth key r hkey
    cases p₀ with
    | none => exact absurd ho (getOriginParent_none hp₀ key o)
    | some o₀ =>
      obtain ⟨key₀, hkey₀, hleast₀⟩ := getOriginParent_some hp₀
      obtain ⟨r₀, hr₀⟩ := hback key₀ o₀ hkey₀
      have heq : key = key₀ := le_antisymm (hleast key₀ r₀ hr₀) (hleast₀ key o ho)
      subst heq
      have hoo : o = o₀ := Option.some.inj (ho.1.symm.trans hkey₀.1)
      subst hoo
      exact .inr ⟨r, o, rfl, rfl, hsrc, hauth⟩

theorem GateFrame.conductingParent (h : GateFrame db₀ db) (a : Action) (hx : Known db₀ x) :
    Mantle.conductingParent db a x = Mantle.conductingParent db₀ a x ∨
      ∃ e, Mantle.conductingParent db a x = .error e := by
  unfold Mantle.conductingParent
  cases hp : Mantle.getOriginParent db x with
  | error e => exact .inr ⟨e, rfl⟩
  | ok p =>
    obtain ⟨p₀, hp₀, hcase⟩ := h.getOriginParent hx hp
    rw [hp₀]
    rcases hcase with ⟨rfl, rfl⟩ | ⟨r, o, rfl, rfl, hsrc, hauth⟩
    · exact .inl rfl
    · refine .inl ?_
      simp only [Except.map, Option.bind_some, hsrc, hauth.conducts]

theorem known_conductingParent {y : String} (h : Mantle.conductingParent db₀ a x = .ok (some y)) :
    Known db₀ y := by
  unfold Mantle.conductingParent at h
  obtain ⟨p, hp, h⟩ := bind_ok h
  cases p with
  | none => cases h
  | some r =>
    obtain ⟨key, ⟨hk, -, hl, -⟩, -⟩ := getOriginParent_some hp
    simp only [Option.bind_some, Except.ok.injEq, Option.ite_none_right_eq_some,
      Option.some.injEq] at h
    exact .inr (.inr ⟨key, r, hk, hl, h.2⟩)

theorem chainRoot_rootIn {db : Store} (h : docOf db id = some doc) :
    chainRoot db id (some (rootIn doc id)) = rootIn doc id := by
  unfold chainRoot
  dsimp only
  split_ifs with hr
  · rw [h]
    rfl
  · rfl

theorem GateFrame.originChain_cut (h : GateFrame db₀ db) (a : Action) {doc' : Doc}
    (hdoc : docOf db₀ id = some doc) (hdoc' : docOf db id = some doc') (hv : SameView id doc doc') :
    (originChain db id a (some (rootIn doc' id))).Cut (originChain db₀ id a (some (rootIn doc id))) := by
  have hroot : Known db₀ (rootIn doc id) := .inr (.inl ⟨id, doc, hdoc, .inl rfl⟩)
  have hcut : ∀ fuel seen,
      (climb (Mantle.conductingParent db a) .chainUnterminated fuel seen (rootIn doc id)).Cut
        (climb (Mantle.conductingParent db₀ a) .chainUnterminated fuel seen (rootIn doc id)) :=
    fun fuel seen => climb_cut (P := Known db₀) (fun _ => h.conductingParent a)
      (fun _ _ _ => known_conductingParent) fuel seen _ hroot
  have hc' : chainRoot db id (some (rootIn doc id)) = rootIn doc id := by
    have := chainRoot_rootIn hdoc'
    rwa [hv.root] at this
  unfold originChain
  simp only [hv.root, chainRoot_rootIn hdoc, hc']
  by_cases hid : rootIn doc id = id
  · rw [if_pos hid, if_pos hid]
    have := hcut originWalkCeiling [id]
    rw [hid] at this
    exact this.cons id
  · rw [if_neg hid, if_neg hid]
    exact ((hcut _ _).cons _).cons _

/-! ### Grants -/

theorem mem_grantDocsBy {db : Store} {d : Doc} : d ∈ grantDocsBy db p ↔
    p ≠ "" ∧ ∃ id, grantAt db id = some d ∧ (d.get "grantee_id").eqStr p = true := by
  unfold grantDocsBy grantAt VRow.isGrant
  by_cases hp : p = ""
  · simp [hp]
  · rw [if_neg hp, List.mem_map]
    simp only [List.mem_filter, Prod.exists, mem_sortedVertices, Bool.and_eq_true,
      Option.bind_eq_some_iff, Option.ite_none_right_eq_some, Option.some.injEq, ne_eq, hp,
      not_false_eq_true, true_and]
    constructor
    · rintro ⟨id, row, ⟨hrow, hct, hg⟩, rfl⟩
      exact ⟨id, ⟨row, hrow, hct, rfl⟩, hg⟩
    · rintro ⟨id, ⟨row, hrow, hct, rfl⟩, hg⟩
      exact ⟨id, row, ⟨hrow, hct, hg⟩, rfl⟩

theorem mem_grantDocsBy_congr (h : ∀ id, grantAt db id = grantAt db₀ id) (d : Doc) :
    d ∈ grantDocsBy db p ↔ d ∈ grantDocsBy db₀ p := by
  rw [mem_grantDocsBy, mem_grantDocsBy]
  simp only [h]

theorem GateFrame.mem_grantDocsBy (h : GateFrame db₀ db) (d : Doc) :
    d ∈ grantDocsBy db p ↔ d ∈ grantDocsBy db₀ p := mem_grantDocsBy_congr h.grants d

theorem GateFrame.mem_resourceGrantDocs (h : GateFrame db₀ db) (d : Doc) :
    d ∈ resourceGrantDocs now db p rid ↔ d ∈ resourceGrantDocs now db₀ p rid := by
  unfold resourceGrantDocs
  rw [List.mem_filter, List.mem_filter, h.mem_grantDocsBy]

theorem GateFrame.checkAllows (h : GateFrame db₀ db) :
    CheckAllows now db p a rid ↔ CheckAllows now db₀ p a rid := by
  unfold CheckAllows
  simp only [h.mem_resourceGrantDocs]

theorem GateFrame.checkDenies (h : GateFrame db₀ db) :
    CheckDenies now db p a rid ↔ CheckDenies now db₀ p a rid := by
  unfold CheckDenies
  simp only [h.mem_resourceGrantDocs]

theorem GateFrame.checkReads (h : GateFrame db₀ db) :
    CheckReads now db p rid ↔ CheckReads now db₀ p rid := by
  unfold CheckReads
  simp only [h.mem_resourceGrantDocs]

theorem LineAllows.of_cut (ht : t.Cut t₀) (hl : LineAllows now db p a t) : LineAllows now db p a t₀ := by
  obtain ⟨pre, r, post, hitems, hallow, hclear⟩ := hl
  have hprefix : t.items <+: t₀.items := by
    rcases ht with rfl | ⟨hi, -⟩
    · exact List.prefix_rfl
    · exact hi
  obtain ⟨rest, hrest⟩ := hprefix
  refine ⟨pre, r, post ++ rest, ?_, hallow, hclear⟩
  rw [← hrest, hitems]
  simp

theorem LineSilent.of_cut (ht : t.Cut t₀) (hl : LineSilent now db p a t) : LineSilent now db p a t₀ := by
  rcases ht with rfl | ⟨-, he⟩
  · exact hl
  · rw [hl.1] at he
    cases he

theorem GateFrame.lineAllows (h : GateFrame db₀ db) (ht : t.Cut t₀) (hl : LineAllows now db p a t) :
    LineAllows now db₀ p a t₀ := by
  obtain ⟨pre, r, post, hitems, hallow, hclear⟩ := hl.of_cut ht
  refine ⟨pre, r, post, hitems, h.checkAllows.mp hallow, ?_⟩
  intro q hq
  exact ⟨h.checkReads.mp (hclear q hq).1, fun hd => (hclear q hq).2 (h.checkDenies.mpr hd)⟩

theorem GateFrame.lineSilent (h : GateFrame db₀ db) (ht : t.Cut t₀) (hl : LineSilent now db p a t) :
    LineSilent now db₀ p a t₀ := by
  obtain ⟨hend, hitems⟩ := hl.of_cut ht
  refine ⟨hend, ?_⟩
  intro q hq
  obtain ⟨h1, h2, h3⟩ := hitems q hq
  exact ⟨h.checkReads.mp h1, fun hd => h2 (h.checkDenies.mpr hd), fun ha => h3 (h.checkAllows.mpr ha)⟩

/-! ### The commons -/

theorem mem_activeCollections_congr (h : ∀ id, grantAt db id = grantAt db₀ id) (rid : String) :
    rid ∈ getActiveCollectionIdsForUser now db p ↔
      rid ∈ getActiveCollectionIdsForUser now db₀ p := by
  unfold getActiveCollectionIdsForUser userGrantDocs
  simp only [List.mem_map, List.mem_filter, List.mem_filterMap, mem_grantDocsBy_congr h,
    Bool.and_eq_true, decide_eq_true_eq]

theorem isOriginEdge_of_column (h : r.isOrigin = some 1) : r.isOriginEdge = true := by
  unfold ERow.isOriginEdge edgeProp
  rw [h]
  rfl

theorem GateFrame.reached (h : GateFrame db₀ db) {g : String} (hg : Known db₀ g)
    (hr : Relation.ReflTransGen (CollectionStep db) rid g) :
    Relation.ReflTransGen (CollectionStep db₀) rid g := by
  induction hr with
  | refl => exact Relation.ReflTransGen.refl
  | @tail u v _ hstep ih =>
    obtain ⟨⟨row, hrow, hct⟩, key, r, hk, rfl, hl, ho, rfl⟩ := hstep
    obtain ⟨o, hko, hsrc, hdst, hlab, hauth⟩ := h.fresh key r hk hl hg (isOriginEdge_of_column ho)
    obtain ⟨row₀, hrow₀, hct₀⟩ := h.collections _ row hg hrow hct
    have hu : Known db₀ r.src := .inr (.inr ⟨key, o, hko, hlab.symm.trans hl, hsrc.symm⟩)
    exact (ih hu).tail ⟨⟨row₀, hrow₀, hct₀⟩, key, o, hko, hdst.symm, hlab.symm.trans hl,
      hauth.column ho, hsrc.symm⟩

theorem GateFrame.madePublic (h : GateFrame db₀ db) {doc' : Doc} (hdoc : docOf db₀ id = some doc)
    (hv : SameView id doc doc') (hp : isMadePublic now db doc' = true) :
    isMadePublic now db₀ doc = true := by
  have hreach : ∀ g, Known db₀ g → g ∈ reachableCollections now db publicPrincipal →
      g ∈ reachableCollections now db₀ publicPrincipal := by
    intro g hg hm
    rw [mem_reachableCollections (by decide)] at hm ⊢
    obtain ⟨rid, hrid, hr⟩ := hm
    exact ⟨rid, (mem_activeCollections_congr h.grants rid).mp hrid, h.reached hg hr⟩
  have hid : idText doc' = idText doc := hv.idText
  unfold idText at hid
  unfold isMadePublic at hp ⊢
  simp only [Bool.or_eq_true, decide_eq_true_eq, hid, hv.grounding] at hp ⊢
  rcases hp with hp | hp
  · cases hg : groundingOf doc with
    | none =>
      rw [hg] at hp
      simp at hp
    | some g =>
      rw [hg] at hp
      simp only [Option.any_some, decide_eq_true_eq] at hp ⊢
      exact .inl (hreach g (.inr (.inl ⟨id, doc, hdoc, .inr (.inl hg)⟩)) hp)
  · exact .inr (hreach _ (.inr (.inl ⟨id, doc, hdoc, .inr (.inr rfl)⟩)) hp)

/-- **A framed store does not widen the gate.** -/
theorem gate_frame (h : GateFrame db₀ db) (hid : db₀.Has id) (hacc : Accepts now db p id a.name) :
    Accepts now db₀ p id a.name := by
  by_cases hp : p = ""
  · obtain ⟨held, hheld⟩ := hacc
    unfold checkAccess at hheld
    rw [Action.ofName_name] at hheld
    subst hp
    cases hd : docOf db id <;> simp [hd] at hheld
  · cases hd : docOf db id with
    | none =>
      obtain ⟨held, hheld⟩ := hacc
      unfold checkAccess at hheld
      rw [Action.ofName_name] at hheld
      simp [hd] at hheld
    | some doc' =>
      obtain ⟨doc, hdoc, hv⟩ := h.docs id doc' hid hd
      have hcut := h.originChain_cut a hdoc hd hv
      rw [accepts_iff hd hp] at hacc
      rw [accepts_iff hdoc hp]
      rcases hacc with hl | ⟨ha, hpub, hl⟩
      · exact .inl (h.lineAllows hcut hl)
      · exact .inr ⟨ha, h.madePublic hdoc hv hpub, h.lineSilent hcut hl⟩

end Frame

end Mantle
