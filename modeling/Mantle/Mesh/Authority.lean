import Mantle.Access.Frame
import Mantle.Mesh.Segment

/-!
# Mantle.Mesh.Authority — what inbound replication may do to the gate

The apply refuses rows by their type, yet authority also rests on containment edges, on roots and groundings, and on
grant rows.  A neutral segment touches none of these.
-/

namespace Mantle

open Tx Relation

variable {d d' : Doc} {id origin : String}

/-! ### Neutral segments -/

section Condition

variable (db₀ : Store) (me : String) (items edges : List Doc)

/-- The row of the document will have this type. -/
def StoresType (d : Doc) (ct : String) : Prop :=
  ∃ c, bindText (d.get "content_type") = .ok c ∧ c.eqStr ct = true

def NamesEdge (key : EdgeKey) (label dst : String) : Prop :=
  (∃ d ∈ keptItems items, ∃ cid, placement d = some (cid, dst) ∧
    key = edgeKey cid dst "contains" ∧ label = "contains") ∨
  ∃ it ∈ edgeItems edges, ∃ arg e, stampEdge me it = .ok arg ∧ unpack arg = .ok e ∧
    key = edgeKey e.src e.dst e.label ∧ label = e.label ∧ dst = e.dst

/-- No record of the segment puts a known id in a container at this key. -/
def NoContainer (key : EdgeKey) : Prop :=
  ∀ label dst, NamesEdge me items edges key label dst → label = containsLabel → ¬Known db₀ dst

/-- The edge at the key is there with the same authority, or it is new and either no origin edge or about no known id.
-/
def NeutralEdgeRow (key : EdgeKey) (row : ERow) : Prop :=
  match db₀.edge.lookup key with
  | some o => o.label = containsLabel → Known db₀ o.dst → SameAuthority o row
  | none => row.isOriginEdge = true → NoContainer db₀ me items edges key

def NeutralEdge (it : Doc) : Prop :=
  ∀ arg e origin seq leaf row, stampEdge me it = .ok arg → unpack arg = .ok e →
    incomingVersion (e.props.get "_origin") (e.props.get "_seq") = some (origin, seq) →
    edgeRow e origin seq leaf = .ok row →
    TakenOver (db₀.edge.lookup (edgeKey e.src e.dst e.label)) origin seq ∨ origin = me →
    NeutralEdgeRow db₀ me items edges (edgeKey e.src e.dst e.label) row

/-- A row under this id that leaves what the gate reads as it is. -/
structure NeutralRow (id : String) (d : Doc) : Prop where
  /-- Over a stored row: no grant, and the same root, grounding and id; no new collection. -/
  old : ∀ r₀, db₀.vertex.lookup id = some r₀ → r₀.isGrant = false ∧ r₀.doc.val.isEmpty = false ∧
    SameView id r₀.doc.val d.norm ∧
    (StoresType d collectionContentType → r₀.isCollection = true)
  /-- Under a new id that is already referred to: no collection. -/
  fresh : db₀.vertex.lookup id = none → Known db₀ id → ¬StoresType d collectionContentType
  /-- Its containment edge, when its container is there. -/
  place : ∀ cid aid, placement d = some (cid, aid) → db₀.Has cid ∨ Brought items cid →
    ∀ origin seq leaf row, edgeRow (placeSpec cid aid) origin seq leaf = .ok row →
      NeutralEdgeRow db₀ me items edges (edgeKey cid aid "contains") row

/-- A wire row the store declines by its version, or a neutral one. -/
def NeutralItem (d : Doc) : Prop :=
  ∀ id, d.get "id" = .str id → id ∉ opIds ∧ verdictOf db₀ d ≠ .newer ∨
    NeutralRow db₀ me items edges id d

/-- An operational row may be written here: nothing else is stored under its id. -/
def OpFree (id : String) : Prop :=
  ∀ r₀, db₀.vertex.lookup id = some r₀ → r₀.isGrant = false ∧ r₀.doc.val.isEmpty = false ∧
    rootIn r₀.doc.val id = id ∧ groundingOf r₀.doc.val = none ∧ idText r₀.doc.val = id

/-- Nothing of the segment the store takes touches what the gate reads about known ids. -/
structure NeutralSegment : Prop where
  rows : ∀ d ∈ keptItems items, NeutralItem db₀ me items edges d
  links : ∀ it ∈ edgeItems edges, NeutralEdge db₀ me items edges it
  declined : (∃ d ∈ keptItems items, isUnordered db₀ d = true) → OpFree db₀ declinedId
  consumed : (∃ d ∈ keptItems items, (d.get "content_ref").truthy = true) → OpFree db₀ consumedId

/-! ### The invariant -/

/-- What the gate reads of a row that stood, or was rewritten neutrally. -/
structure RowView (id : String) (r₀ r : VRow) : Prop where
  grant : r.isGrant = r₀.isGrant
  grantDoc : r₀.isGrant = true → r.doc.val = r₀.doc.val
  doc : r.doc.val.isEmpty = false → r₀.doc.val.isEmpty = false ∧ SameView id r₀.doc.val r.doc.val
  collection : r.isCollection = true → r₀.isCollection = true

/-- The vertices after part of a neutral segment. -/
structure VertexFrame (db : Store) : Prop where
  old : ∀ id r₀, db₀.vertex.lookup id = some r₀ → ∃ r, db.vertex.lookup id = some r ∧
    (id ∉ opIds → r.origin = r₀.origin ∧ r₀.seq ≤ r.seq) ∧ RowView id r₀ r
  fresh : ∀ id r, db₀.vertex.lookup id = none → db.vertex.lookup id = some r →
    Brought items id ∧ r.isGrant = false ∧ (Known db₀ id → r.isCollection = false)

structure EdgeFrame (db : Store) : Prop where
  old : ∀ key o, db₀.edge.lookup key = some o → ∃ r, db.edge.lookup key = some r ∧ r.src = o.src ∧
    r.dst = o.dst ∧ r.label = o.label ∧ (r.origin = me ∨ r.origin = o.origin ∧ o.seq ≤ r.seq) ∧
    (o.label = containsLabel → Known db₀ o.dst → SameAuthority o r)
  fresh : ∀ key r, db₀.edge.lookup key = none → db.edge.lookup key = some r →
    NamesEdge me items edges key r.label r.dst ∧
    (r.label = containsLabel → Known db₀ r.dst → r.isOriginEdge = false)

end Condition

theorem SameView.refl (id : String) (doc : Doc) : SameView id doc doc := ⟨rfl, rfl, rfl⟩

theorem SameAuthority.refl (r : ERow) : SameAuthority r r := ⟨rfl, fun _ => rfl, id⟩

theorem RowView.refl (id : String) (r : VRow) : RowView id r r :=
  ⟨rfl, fun _ => rfl, fun h => ⟨h, SameView.refl id _⟩, fun h => h⟩

section Invariant

variable {db₀ db db' : Store} {me : String} {items edges : List Doc}

theorem vertexFrame_refl : VertexFrame db₀ items db₀ where
  old id r₀ h := ⟨r₀, h, fun _ => ⟨rfl, le_refl _⟩, RowView.refl id r₀⟩
  fresh id r h h' := by
    rw [h] at h'
    cases h'

theorem edgeFrame_refl : EdgeFrame db₀ me items edges db₀ where
  old key o h := ⟨o, h, rfl, rfl, rfl, .inr ⟨rfl, le_refl _⟩, fun _ _ => SameAuthority.refl o⟩
  fresh key r h h' := by
    rw [h] at h'
    cases h'

theorem VertexFrame.of_vertex (h : VertexFrame db₀ items db) (hv : db'.vertex = db.vertex) :
    VertexFrame db₀ items db' := by
  refine ⟨?_, ?_⟩
  · intro id r₀ hr₀
    rw [hv]
    exact h.old id r₀ hr₀
  · intro id r hno hr
    rw [hv] at hr
    exact h.fresh id r hno hr

theorem EdgeFrame.of_edge (h : EdgeFrame db₀ me items edges db) (he : db'.edge = db.edge) :
    EdgeFrame db₀ me items edges db' := by
  refine ⟨?_, ?_⟩
  · intro key o ho
    rw [he]
    exact h.old key o ho
  · intro key r hno hr
    rw [he] at hr
    exact h.fresh key r hno hr

theorem VertexFrame.has (h : VertexFrame db₀ items db) {x : String} (hx : db.Has x) :
    db₀.Has x ∨ Brought items x := by
  obtain ⟨r, hr⟩ := Option.isSome_iff_exists.mp hx
  cases h₀ : db₀.vertex.lookup x with
  | none => exact .inr (h.fresh x r h₀ hr).1
  | some r₀ =>
    refine .inl ?_
    unfold Store.Has
    rw [h₀]
    rfl

theorem gateFrame (hv : VertexFrame db₀ items db) (he : EdgeFrame db₀ me items edges db) :
    GateFrame db₀ db where
  docs id doc' hid hdoc' := by
    obtain ⟨r₀, hr₀⟩ := Option.isSome_iff_exists.mp hid
    obtain ⟨r, hr, -, hview⟩ := hv.old id r₀ hr₀
    unfold docOf at hdoc' ⊢
    rw [hr] at hdoc'
    rw [hr₀]
    simp only [Option.bind_some, Option.ite_none_left_eq_some, Option.some.injEq] at hdoc' ⊢
    obtain ⟨hne, rfl⟩ := hdoc'
    obtain ⟨hne₀, hsame⟩ := hview.doc (by simpa using hne)
    exact ⟨r₀.doc.val, ⟨by simp [hne₀], rfl⟩, hsame⟩
  grants id := by
    unfold grantAt
    cases h₀ : db₀.vertex.lookup id with
    | none =>
      cases hr : db.vertex.lookup id with
      | none => rfl
      | some r => simp [(hv.fresh id r h₀ hr).2.1]
    | some r₀ =>
      obtain ⟨r, hr, -, hview⟩ := hv.old id r₀ h₀
      rw [hr]
      simp only [Option.bind_some, hview.grant]
      cases hg : r₀.isGrant with
      | false => simp
      | true => simp [hview.grantDoc hg]
  collections x r hx hr hc := by
    cases h₀ : db₀.vertex.lookup x with
    | none =>
      have := (hv.fresh x r h₀ hr).2.2 hx
      rw [hc] at this
      cases this
    | some r₀ =>
      obtain ⟨r', hr', -, hview⟩ := hv.old x r₀ h₀
      rw [hr] at hr'
      cases hr'
      exact ⟨r₀, rfl, hview.collection hc⟩
  kept key o ho hl hd := by
    obtain ⟨r, hr, hs, hd', hl', -, hauth⟩ := he.old key o ho
    exact ⟨r, hr, hs, hd', hl', hauth hl hd⟩
  fresh key r hr hl hd horig := by
    cases h₀ : db₀.edge.lookup key with
    | none =>
      have := (he.fresh key r h₀ hr).2 hl hd
      rw [horig] at this
      cases this
    | some o =>
      obtain ⟨r', hr', hs, hd', hl', -, hauth⟩ := he.old key o h₀
      rw [hr] at hr'
      cases hr'
      exact ⟨o, rfl, hs, hd', hl', hauth (hl'.symm.trans hl) (hd' ▸ hd)⟩

/-! ### One row -/

theorem upsertVertex_view (prev : Option VRow) (row : VRow) :
    (upsertVertex prev row).isGrant = row.isGrant ∧
      (upsertVertex prev row).isCollection = row.isCollection := by
  cases prev <;> exact ⟨rfl, rfl⟩

theorem VertexFrame.write (h : VertexFrame db₀ items db) {row : VRow}
    (hv : db'.vertex = db.vertex.insert id (upsertVertex (db.vertex.lookup id) row))
    (hgrant : row.isGrant = false)
    (hold : ∀ r₀, db₀.vertex.lookup id = some r₀ →
      (id ∉ opIds → row.origin = r₀.origin ∧ r₀.seq ≤ row.seq) ∧ r₀.isGrant = false ∧
      r₀.doc.val.isEmpty = false ∧ SameView id r₀.doc.val row.doc.val ∧
      (row.isCollection = true → r₀.isCollection = true))
    (hfresh : db₀.vertex.lookup id = none →
      Brought items id ∧ (Known db₀ id → row.isCollection = false)) :
    VertexFrame db₀ items db' := by
  obtain ⟨hg, hc⟩ := upsertVertex_view (db.vertex.lookup id) row
  obtain ⟨ho, hs, -, hd⟩ := upsertVertex_fields (db.vertex.lookup id) row
  refine ⟨?_, ?_⟩
  · intro x r₀ hr₀
    rw [hv, Table.lookup_insert_of]
    by_cases hx : x = id
    · subst hx
      obtain ⟨hver, hg₀, hne₀, hview, hcol⟩ := hold r₀ hr₀
      refine ⟨_, by rw [if_pos rfl], ?_, ?_⟩
      · rw [ho, hs]
        exact hver
      · refine ⟨by rw [hg, hgrant, hg₀], ?_, ?_, by rw [hc]; exact hcol⟩
        · intro hgr
          rw [hg₀] at hgr
          cases hgr
        · intro _
          rw [hd]
          exact ⟨hne₀, hview⟩
    · rw [if_neg hx]
      exact h.old x r₀ hr₀
  · intro x r hno hr
    rw [hv, Table.lookup_insert_of] at hr
    by_cases hx : x = id
    · subst hx
      rw [if_pos rfl] at hr
      cases hr
      exact ⟨(hfresh hno).1, hg.trans hgrant, fun hk => hc.trans ((hfresh hno).2 hk)⟩
    · rw [if_neg hx] at hr
      exact h.fresh x r hno hr

/-! ### One edge -/

theorem SameAuthority.upsert {o r : ERow} (h : SameAuthority o r) (old : Option ERow) :
    SameAuthority o (upsertEdge old r) := by
  cases old <;> exact ⟨h.origin, h.conducts, h.column⟩

theorem upsertEdge_isOriginEdge (old : Option ERow) (r : ERow) :
    (upsertEdge old r).isOriginEdge = r.isOriginEdge := by
  cases old <;> rfl

theorem EdgeFrame.write (h : EdgeFrame db₀ me items edges db) {key : EdgeKey} {row : ERow}
    (hw : EdgeWritten key row db db') (hneutral : NeutralEdgeRow db₀ me items edges key row)
    (hver : ∀ o, db₀.edge.lookup key = some o →
      row.origin = me ∨ row.origin = o.origin ∧ o.seq ≤ row.seq)
    (hnames : NamesEdge me items edges key row.label row.dst) : EdgeFrame db₀ me items edges db' := by
  obtain ⟨ho, hs, -⟩ := upsertEdge_fields (db.edge.lookup key) row
  refine ⟨?_, ?_⟩
  · intro k o hk
    rw [hw.edge, Table.lookup_insert_of]
    by_cases hkk : k = key
    · subst hkk
      obtain ⟨r, hr, hrs, hrd, hrl, -, -⟩ := h.old k o hk
      unfold NeutralEdgeRow at hneutral
      rw [hk] at hneutral
      refine ⟨_, by rw [if_pos rfl], ?_⟩
      rw [ho, hs, hr]
      exact ⟨hrs, hrd, hrl, hver o hk, fun hl hd => (hneutral hl hd).upsert _⟩
    · rw [if_neg hkk]
      exact h.old k o hk
  · intro k r hno hr
    rw [hw.edge, Table.lookup_insert_of] at hr
    by_cases hkk : k = key
    · subst hkk
      rw [if_pos rfl] at hr
      cases hr
      unfold NeutralEdgeRow at hneutral
      rw [hno] at hneutral
      -- the endpoints are those of the first record that brought the edge
      have hfirst : NamesEdge me items edges k (upsertEdge (db.edge.lookup k) row).label
          (upsertEdge (db.edge.lookup k) row).dst := by
        cases hk : db.edge.lookup k with
        | none => exact hnames
        | some r => exact (h.fresh k r hno hk).1
      refine ⟨hfirst, ?_⟩
      intro hl hd
      rw [upsertEdge_isOriginEdge]
      by_contra horig
      rw [Bool.not_eq_false] at horig
      exact hneutral horig _ _ hfirst hl hd
    · rw [if_neg hkk] at hr
      exact h.fresh k r hno hr

/-! ### What the gate reads of a stored form -/

def viewKeys : List String := ["root_id", "collection_id", "origin_root", "id"]

theorem SameView.congr {doc : Doc} (h : SameView id doc d) (hk : ∀ k ∈ viewKeys, d'.get k = d.get k) :
    SameView id doc d' := by
  obtain ⟨h1, h2, h3⟩ := h
  have hr := hk "root_id" (by decide)
  have hc := hk "collection_id" (by decide)
  have ho := hk "origin_root" (by decide)
  have hi := hk "id" (by decide)
  refine ⟨?_, ?_, ?_⟩
  · unfold rootIn at h1 ⊢
    rw [hr, h1]
  · unfold groundingOf at h2 ⊢
    rw [hc, ho, h2]
  · unfold Mantle.idText at h3 ⊢
    rw [hi, h3]

theorem confersAuthority_of_column {v c : Val} (h : bindText v = .ok c)
    (hc : c.eqStr grantContentType = true) : confersAuthority v = true := by
  have hgrant : confersAuthority (.str grantContentType) = true := by decide +kernel
  have hstr : ∀ s, c = .str s → s = grantContentType := by
    rintro s rfl
    simpa [Val.eqStr] using hc
  cases v with
  | none =>
    cases h
    cases hc
  | str s =>
    cases h
    rw [hstr s rfl]
    exact hgrant
  | bytes b =>
    cases h
    cases hc
  | bool b =>
    cases b <;> cases h <;> exact absurd (hstr _ rfl) (by decide)
  | int n =>
    have h : (bindInt n).map (fun m => Val.str (toString m)) = .ok c := h
    obtain ⟨m, hn, h⟩ := bind_ok h
    cases h
    have hm := hstr _ rfl
    rw [bindInt_ok hn] at hm
    by_cases h0 : n = 0
    · subst h0
      exact absurd hm (by decide)
    · have hn' : typeText (.int n) = typeText (.str grantContentType) := by
        have ht : typeText (.str grantContentType) = grantContentType := by decide
        rw [ht]
        simpa [typeText, Val.orElse, Val.truthy, h0, Val.pyStr, Val.repr] using hm
      unfold confersAuthority at hgrant ⊢
      rw [hn']
      exact hgrant
  | float f =>
    cases h
    have hm := hstr _ rfl
    exact absurd (by rw [hm]; decide) f.noSlash
  | list xs => cases h
  | tuple xs => cases h
  | dict xs => cases h

/-! ### One write of the segment -/

def Framed (db₀ : Store) (me : String) (items edges : List Doc) (db : Store) : Prop :=
  VertexFrame db₀ items db ∧ EdgeFrame db₀ me items edges db

theorem framed_ofTables : OfTables (Framed db₀ me items edges) := by
  rintro a b h ⟨hv, he⟩
  exact ⟨hv.of_vertex h.vertex, he.of_edge h.edge⟩

structure WriteOk (db₀ : Store) (me : String) (items edges : List Doc) (id origin : String) (seq : ℤ)
    (d : Doc) : Prop where
  neutral : NeutralRow db₀ me items edges id d
  allowed : confersAuthority (d.get "content_type") = false
  brought : Brought items id
  named : ∀ cid aid, placement d = some (cid, aid) →
    NamesEdge me items edges (edgeKey cid aid "contains") "contains" aid
  version : id ∉ opIds → ∀ r₀, db₀.vertex.lookup id = some r₀ → origin = r₀.origin ∧ r₀.seq ≤ seq

theorem isGrant_false_of_allowed {seq : ℤ} {leaf : ℕ} {row : VRow}
    (h : vertexRow d origin seq leaf = .ok row) (hd : confersAuthority (d.get "content_type") = false) :
    row.isGrant = false := by
  by_contra hg
  rw [Bool.not_eq_false] at hg
  rw [confersAuthority_of_column (vertexRow_ct h) hg] at hd
  cases hd

/-- Two documents that differ at most in their contexts and states. -/
def SameBut (d d' : Doc) : Prop := ∀ k, k ≠ "context" → k ≠ "state" → d'.get k = d.get k

theorem SameBut.refl (d : Doc) : SameBut d d := fun _ _ _ => rfl

theorem SameBut.placement (h : SameBut d d') : placement d' = Mantle.placement d := by
  unfold Mantle.placement
  rw [h "collection_id" (by decide) (by decide), h "root_id" (by decide) (by decide),
    h "id" (by decide) (by decide)]

theorem Framed.writeRow (h : Framed db₀ me items edges db) {s : ℤ} {seq : Val}
    (hid : d.get "id" = .str id) (hd : SameBut d d') (hok : WriteOk db₀ me items edges id origin s d)
    (hs : seq.asInt = some s) (hw : RowWritten me d' origin seq db db') :
    Framed db₀ me items edges db' := by
  obtain ⟨aid, s', leaf, row, m, haid, hs', hrow, hmv, hme, hpl⟩ := hw.row
  have haid : aid = id := by
    have := docId_ok haid
    rw [hd "id" (by decide) (by decide), hid] at this
    cases this
    rfl
  subst haid
  have hss : s' = s := Option.some.inj (hs'.symm.trans hs)
  subst hss
  obtain ⟨ho, hsq, -, hdoc⟩ := vertexRow_ok hrow
  -- the stamped document agrees with the wire's at every key the gate reads
  have hget : ∀ k, k ≠ "context" → k ≠ "state" → k ∉ stampKeys →
      (stampedDoc d' origin seq (db.vertex.lookup aid)).get k = d.get k := by
    intro k h1 h2 h3
    rw [stampedDoc_get h3, hd k h1 h2]
  have hct := hget "content_type" (by decide) (by decide) (by decide)
  have hgrant : row.isGrant = false := isGrant_false_of_allowed hrow (by rw [hct]; exact hok.allowed)
  have hview : ∀ doc, SameView aid doc d.norm → SameView aid doc row.doc.val := by
    intro doc hv
    refine hv.congr ?_
    intro k hk
    rw [hdoc, Doc.get_norm, Doc.get_norm, hget k]
    all_goals
      simp only [viewKeys, List.mem_cons, List.not_mem_nil, or_false] at hk
      rcases hk with rfl | rfl | rfl | rfl <;> decide
  have hcol : row.isCollection = true → StoresType d collectionContentType := by
    intro hc
    have := vertexRow_ct hrow
    rw [hct] at this
    exact ⟨row.ct, this, hc⟩
  have hvm : VertexFrame db₀ items m := by
    refine h.1.write hmv hgrant ?_ ?_
    · intro r₀ hr₀
      obtain ⟨hg₀, hne₀, hv₀, hc₀⟩ := hok.neutral.old r₀ hr₀
      refine ⟨?_, hg₀, hne₀, hview _ hv₀, fun hc => hc₀ (hcol hc)⟩
      intro hop
      rw [ho, hsq]
      exact hok.version hop r₀ hr₀
    · intro hno
      refine ⟨hok.brought, ?_⟩
      intro hk
      by_contra hc
      rw [Bool.not_eq_false] at hc
      exact hok.neutral.fresh hno hk (hcol hc)
  have hem : EdgeFrame db₀ me items edges m := h.2.of_edge hme
  rcases hpl with ⟨hsame, -⟩ | ⟨cid, mid, sq, lf, erow, hp, hcid, herow, hew⟩
  · exact framed_ofTables _ _ hsame ⟨hvm, hem⟩
  · rw [hd.placement] at hp
    obtain ⟨hl, hdst⟩ := edgeRow_endpoints herow
    refine ⟨hvm.of_vertex hew.vertex, hem.write hew ?_ ?_ ?_⟩
    · exact hok.neutral.place cid mid hp (hvm.has hcid) _ _ _ _ herow
    · intro o _
      exact .inl (edgeRow_ok herow).1
    · rw [hl, hdst]
      exact hok.named cid mid hp

theorem VertexFrame.aged (h : VertexFrame db₀ items db) : Aged db₀ items db where
  old id r₀ hop hr₀ := by
    obtain ⟨r, hr, hver, -⟩ := h.old id r₀ hr₀
    exact ⟨r, hr, hver hop⟩
  has _ hx := h.has hx

end Invariant

section Apply

variable {n₀ : Node} {items edges : List Doc} {float : String → Flt}

def ApplyInv (n₀ : Node) (items edges : List Doc) : Store → Prop :=
  Framed n₀.db n₀.origin items edges

theorem storedForm_sameBut (h : storedForm float d = .ok d') : SameBut d d' :=
  fun _ hc hs => storedForm_get h hc hs

theorem keptItems_allowed (h : d ∈ keptItems items) :
    confersAuthority (d.get "content_type") = false := by
  have := (List.mem_filter.mp h).2
  simpa using this

theorem inside_putOne (hneutral : NeutralSegment n₀.db n₀.origin items edges) (hmem : d ∈ keptItems items)
    (hform : storedForm float d = .ok d') :
    Inside n₀ (ApplyInv n₀ items edges) (putOne false .keepLocal d') := by
  refine inside_of_tables (fun n _ => putOne_sameEnv _ _ _ n) ?_
  intro n hn
  have hsame := storedForm_sameBut hform
  refine (putOne_tables .keepLocal d' n).imp ?_
  rintro - n' ⟨-, ⟨-, hs⟩ | ⟨hrows, origin, s, hv, hw⟩⟩
  · exact framed_ofTables _ _ hs hn.holds
  · obtain ⟨ho, hseq⟩ := incomingVersion_asInt hv
    obtain ⟨aid, -, -, -, -, haid, -⟩ := hw.row
    have hid : d.get "id" = .str aid := by
      rw [← hsame "id" (by decide) (by decide)]
      exact docId_ok haid
    -- the store takes the row, so it was newer than what stood at the start
    have hnew : verdictOf n.db d' = .newer := by
      unfold oneRows at hrows
      revert hrows
      cases verdictOf n.db d' <;> simp
    have hverd : ∀ db', verdictOf db' d' = verdictOf db' d := by
      intro db'
      unfold verdictOf
      rw [hsame "id" (by decide) (by decide), hsame "_origin" (by decide) (by decide),
        hsame "_seq" (by decide) (by decide)]
    rw [hverd] at hnew
    have hstart : aid ∉ opIds → verdictOf n₀.db d = .newer ∧
        ∀ r₀, n₀.db.vertex.lookup aid = some r₀ →
          d.get "_origin" = .str r₀.origin ∧ ∃ a, (d.get "_seq").asInt = some a ∧ r₀.seq ≤ a :=
      fun hop => hn.holds.1.aged.newer hop hid hnew
    have hrow : NeutralRow n₀.db n₀.origin items edges aid d := by
      rcases hneutral.rows d hmem aid hid with ⟨hop, hnot⟩ | hrow
      · exact absurd (hstart hop).1 hnot
      · exact hrow
    rw [hn.origin] at hw
    refine hn.holds.writeRow hid hsame ⟨hrow, keptItems_allowed hmem, .inr ⟨d, hmem, hid⟩, ?_, ?_⟩
      hseq hw
    · intro cid mid hp
      exact .inl ⟨d, hmem, cid, hp, rfl, rfl⟩
    · intro hop r₀ hr₀
      obtain ⟨ho₀, a, ha, hle⟩ := (hstart hop).2 r₀ hr₀
      rw [← hsame "_origin" (by decide) (by decide), ho] at ho₀
      rw [← hsame "_seq" (by decide) (by decide), hseq] at ha
      cases ho₀
      cases ha
      exact ⟨rfl, hle⟩

/-! ### The operational rows -/

theorem OpShaped.not_storesType (h : OpShaped id d) :
    ¬StoresType d collectionContentType := by
  rintro ⟨c, hc, heq⟩
  rw [h.type] at hc
  cases hc
  exact absurd heq (by decide)

theorem OpShaped.neutral {db₀ : Store} {me : String} (h : OpShaped id d) (hne : id ≠ "")
    (hfree : OpFree db₀ id) : NeutralRow db₀ me items edges id d where
  old r₀ hr₀ := by
    obtain ⟨hg, he, hroot, hground, hid⟩ := hfree r₀ hr₀
    refine ⟨hg, he, ⟨?_, ?_, ?_⟩, fun hc => absurd hc h.not_storesType⟩
    · rw [hroot]
      unfold rootIn
      rw [Doc.get_norm, h.root]
      rfl
    · rw [hground]
      unfold groundingOf
      rw [Doc.get_norm, Doc.get_norm, h.collection, h.originRoot]
      rfl
    · rw [hid]
      unfold idText
      rw [Doc.get_norm, h.id]
      simp [Val.norm, Val.orElse, hne, Val.pyStr]
  fresh _ _ := h.not_storesType
  place cid aid hp _ := by
    rw [h.placement] at hp
    cases hp

theorem top_putOp (hop : id ∈ opIds) (hd : OpShaped id d) (hfree : OpFree n₀.db id) :
    Top n₀ (ApplyInv n₀ items edges) (putOp d) := by
  have hne : id ≠ "" := by
    rintro rfl
    exact absurd hop (by decide)
  have hshape := hd.pinned
  refine top_ite (fun _ => top_throw _) fun _ => top_bind ?_ fun _ => top_pure _
  rw [putArtifact_consumed]
  refine top_ite (fun _ => top_throw _) fun _ => top_write framed_ofTables ?_
  refine inside_of_tables (fun n _ => putConsumed_sameEnv _ n) ?_
  intro n hn
  refine (putConsumed_tables (opDoc d) n).imp ?_
  rintro - n' ⟨origin, s, hv, hw⟩
  rw [hn.origin] at hw
  refine hn.holds.writeRow hshape.id (SameBut.refl _) ⟨hshape.neutral hne hfree, ?_, .inl hop, ?_, ?_⟩
    (incomingVersion_asInt hv).2 hw
  · rw [hshape.type]
    decide +kernel
  · intro cid aid hp
    rw [hshape.placement] at hp
    cases hp
  · exact fun hno => absurd hop hno

/-! ### One wire edge -/

theorem EdgeFrame.taken {db₀ db : Store} {me : String} (h : EdgeFrame db₀ me items edges db)
    {key : EdgeKey} {seq : ℤ} (hne : origin ≠ me) (ht : TakenOver (db.edge.lookup key) origin seq) :
    TakenOver (db₀.edge.lookup key) origin seq ∧
      ∀ o, db₀.edge.lookup key = some o → origin = o.origin ∧ o.seq ≤ seq := by
  have hold : ∀ o, db₀.edge.lookup key = some o → origin = o.origin ∧ o.seq < seq := by
    intro o ho
    obtain ⟨r, hr, -, -, -, hver, -⟩ := h.old key o ho
    obtain ⟨heq, a, ha, hlt⟩ := compareVersion_newer_iff.mp (ht r hr)
    cases ha
    have horig : origin = r.origin := Val.str.inj (eqStr_iff.mp heq)
    rcases hver with hme | ⟨hro, hle⟩
    · exact absurd (horig.trans hme) hne
    · exact ⟨horig.trans hro, lt_of_le_of_lt hle hlt⟩
  refine ⟨?_, fun o ho => ⟨(hold o ho).1, le_of_lt (hold o ho).2⟩⟩
  intro o ho
  obtain ⟨heq, hlt⟩ := hold o ho
  exact compareVersion_newer_iff.mpr ⟨eqStr_iff.mpr (by rw [heq]), seq, rfl, hlt⟩

theorem inside_addOne (hneutral : NeutralSegment n₀.db n₀.origin items edges) {it : Doc}
    {arg : EdgeArg} (hmem : it ∈ edgeItems edges) (harg : stampEdge n₀.origin it = .ok arg) :
    Inside n₀ (ApplyInv n₀ items edges) (addOne n₀.graphLeaves arg false) := by
  refine inside_of_tables ?_ ?_
  · intro n hn
    rw [← hn.graphLeaves]
    exact addOne_sameEnv arg false n
  · intro n hn
    refine (addOne_tables n₀.graphLeaves arg n).imp ?_
    rintro - n' (hs | ⟨e, origin, seq, leaf, row, he, hv, hrow, ht, hw⟩)
    · exact framed_ofTables _ _ hs hn.holds
    · obtain ⟨ho, hsq, -⟩ := edgeRow_ok hrow
      obtain ⟨hl, hd⟩ := edgeRow_endpoints hrow
      have hlink := hneutral.links it hmem arg e origin seq leaf row harg he hv hrow
      have hnames : NamesEdge n₀.origin items edges (edgeKey e.src e.dst e.label) row.label row.dst :=
        .inr ⟨it, hmem, arg, e, harg, he, rfl, hl, hd⟩
      refine ⟨hn.holds.1.of_vertex hw.vertex, ?_⟩
      by_cases hme : origin = n₀.origin
      · exact hn.holds.2.write hw (hlink (.inr hme)) (fun _ _ => .inl (ho.trans hme)) hnames
      · obtain ⟨htaken, hver⟩ := hn.holds.2.taken hme ht
        refine hn.holds.2.write hw (hlink (.inl htaken)) ?_ hnames
        intro o hk
        rw [ho, hsq]
        exact .inr (hver o hk)

/-! ### The apply -/

theorem top_writeBatch (hneutral : NeutralSegment n₀.db n₀.origin items edges) {batch : List Doc}
    (hbatch : ∀ d ∈ batch, d ∈ keptItems items) (refused declined : ℕ) :
    Top n₀ (ApplyInv n₀ items edges) (writeBatch float batch refused declined) := by
  intro n hn hi
  unfold writeBatch
  refine runs_bind (runs_ofExcept ?_ ⟨hn, hi⟩)
  intro docs hdocs
  have hform : ∀ d' ∈ docs, ∃ d ∈ batch, storedForm float d = .ok d' :=
    fun d' hd' => (mapM_ok hdocs d').mp hd'
  have hput : Top n₀ (ApplyInv n₀ items edges) (putMany docs 500 false .keepLocal) := by
    refine top_bulk framed_ofTables ?_
    intro d' hd'
    obtain ⟨d, hd, hf⟩ := hform d' hd'
    exact inside_putOne hneutral (hbatch d hd) hf
  have hqueue : Top n₀ (ApplyInv n₀ items edges) (enqueueConsumed docs) := by
    intro m hm hmi
    refine runs_bind (runs_get (runs_ite (fun _ => runs_pure ⟨hm, hmi⟩) fun hids => ?_))
    refine top_putOp (by decide) (opShaped_consumedDoc _ _) (hneutral.consumed ?_) m hm hmi
    -- a queued id is the id of a row with content
    have hsome : consumedIds m.origin docs ≠ [] := by simpa [List.isEmpty_iff] using hids
    obtain ⟨x, hx⟩ := List.exists_mem_of_ne_nil _ hsome
    obtain ⟨d', hd', -⟩ := List.mem_map.mp hx
    obtain ⟨hd', hcond⟩ := List.mem_filter.mp hd'
    obtain ⟨d, hd, hf⟩ := hform d' hd'
    refine ⟨d, hbatch d hd, ?_⟩
    rw [← storedForm_get hf (k := "content_ref") (by decide) (by decide)]
    simp only [Bool.and_eq_true] at hcond
    exact hcond.1.2
  exact (top_bind hput fun written => top_ite (fun _ => top_throw _) fun _ =>
    top_bind hqueue fun _ => top_pure _) n hn hi

theorem top_applyEdges (hneutral : NeutralSegment n₀.db n₀.origin items edges) :
    Top n₀ (ApplyInv n₀ items edges) (applyEdges edges) := by
  refine top_ite (fun _ => top_pure _) fun _ => ?_
  intro n hn hi
  refine runs_bind (runs_get (runs_bind (runs_ofExcept ?_ ⟨hn, hi⟩)))
  intro stamped hstamped
  have hadd : Top n₀ (ApplyInv n₀ items edges) (addEdges stamped 500 false) := by
    intro m hm hmi
    refine runs_bind (runs_get ?_)
    rw [hm.graphLeaves]
    refine top_bulk framed_ofTables ?_ m hm hmi
    intro arg harg
    obtain ⟨it, hit, hst⟩ := (mapM_ok hstamped arg).mp harg
    rw [hn.origin] at hst
    exact inside_addOne hneutral hit hst
  exact (top_bind hadd fun _ => top_ite (fun _ => top_throw _) fun _ => top_pure _) n hn hi

theorem at_start (n₀ : Node) (items edges : List Doc) : At n₀ (ApplyInv n₀ items edges) n₀ :=
  ⟨rfl, rfl, vertexFrame_refl, edgeFrame_refl⟩

theorem applySegment_runs (float : String → Flt) (hneutral : NeutralSegment n₀.db n₀.origin items edges)
    (hi : n₀.inTxn = false) :
    Runs (applySegment float items edges) n₀ (fun _ n => ApplyInv n₀ items edges n.db)
      fun n => ApplyInv n₀ items edges n.db := by
  have hstart := at_start n₀ items edges
  have hafter : Top n₀ (ApplyInv n₀ items edges) (do
      let _ ← applyEdges edges
      pure ⟨⟩ : DbM PUnit) := top_bind (top_applyEdges hneutral) fun _ => top_pure _
  have hart : Runs (applyArtifacts float items) n₀
      (fun _ n => At n₀ (ApplyInv n₀ items edges) n ∧ n.inTxn = false)
      fun n => At n₀ (ApplyInv n₀ items edges) n ∧ n.inTxn = false := by
    refine runs_ite (fun _ => runs_pure ⟨hstart, hi⟩) fun _ => ?_
    -- what is declined is declined against the store at the start
    have hsplit : Runs (splitUnordered (keptItems items)) n₀
        (fun split n => (At n₀ (ApplyInv n₀ items edges) n ∧ n.inTxn = false) ∧
          ∀ d ∈ split.1, d ∈ keptItems items)
        fun n => At n₀ (ApplyInv n₀ items edges) n ∧ n.inTxn = false := by
      refine runs_bind (runs_get ?_)
      have hop : Top n₀ (ApplyInv n₀ items edges)
          (recordDeclined n₀.db (newlyDeclined n₀.db (keptItems items))) :=
        top_ite (fun _ => top_pure _) fun hne => top_putOp (by decide) (opShaped_declinedDoc _ _)
          (hneutral.declined (newlyDeclined_exists hne))
      refine runs_bind ((hop n₀ hstart hi).imp ?_)
      intro _ n hn
      exact runs_pure ⟨hn, fun d hd => List.mem_of_mem_filter hd⟩
    refine runs_bind (hsplit.imp ?_)
    rintro split n ⟨⟨hn, hni⟩, hmem⟩
    exact top_ite (fun _ => top_pure _) (fun _ => top_writeBatch hneutral hmem _ _) n hn hni
  refine runs_bind (hart.mono ?_ fun _ h => h.1.holds)
  intro _ n hn
  exact (hafter n hn.1 hn.2).mono (fun _ _ h => h.1.holds) fun _ h => h.1.holds

/-- **A neutral segment widens nothing**: an id that was stored before the apply and could not be
reached cannot be reached after it. -/
theorem applySegment_within_gate (float : String → Flt) (n : Node) (items edges : List Doc)
    (hi : n.inTxn = false) (hneutral : NeutralSegment n.db n.origin items edges) (now : Val → Bool)
    (p id : String) (a : Action) (hid : n.db.Has id) (hno : ¬Accepts now n.db p id a.name) :
    ¬Accepts now (n.applied float items edges).db p id a.name := by
  have hinv : ApplyInv n items edges (n.applied float items edges).db := by
    have h := applySegment_runs float hneutral hi
    unfold Runs at h
    unfold Node.applied
    cases hr : applySegment float items edges n with
    | ok u n' =>
      rw [hr] at h
      exact h
    | error e n' =>
      rw [hr] at h
      exact h
  exact fun hacc => hno (gate_frame (gateFrame hinv.1 hinv.2) hid hacc)

end Apply

def privateNode : Node :=
  hereNode.run
    [.putArtifact [("id", .str "x")] true false,
     .putArtifact [("id", .str "c")] true false,
     .putArtifact (grantDoc "g" "u" "c" "allow") true false]

def peerItems : List Doc :=
  [[("id", .str "y"), ("content_type", .str "text/plain"), ("_origin", .str "peer"), ("_seq", .int 1)]]

def graftEdges : List Doc :=
  [[("f", .str "c"), ("t", .str "x"), ("label", .str "contains"),
    ("props", .dict [(.str "is_origin", .int 1)])]]

theorem graft_widens_gate :
    ¬ ∀ (float : String → Flt) (n : Node) (items edges : List Doc) (now : Val → Bool) (p id : String)
      (a : Action), n.inTxn = false → n.db.Has id → ¬Accepts now n.db p id a.name →
        ¬Accepts now (n.applied float items edges).db p id a.name := by
  intro h
  refine h litFloat privateNode [] graftEdges (fun _ => true) "u" "x" .read rfl ?_ ?_ ?_
  · unfold Store.Has
    decide +kernel
  · rw [accepts_iff_acceptsB]
    decide +kernel
  · rw [accepts_iff_acceptsB]
    decide +kernel

theorem applySegment_within_gate_peerItems :
    NeutralSegment privateNode.db privateNode.origin peerItems [] ∧
    privateNode.db.Has "x" ∧ ¬Accepts (fun _ => true) privateNode.db "u" "x" Action.read.name ∧
    ¬Accepts (fun _ => true) (privateNode.applied litFloat peerItems []).db "u" "x" Action.read.name := by
  have hkept : ∀ d ∈ keptItems peerItems, d = [("id", .str "y"), ("content_type", .str "text/plain"),
      ("_origin", .str "peer"), ("_seq", .int 1)] := by
    intro d hd
    have := List.mem_of_mem_filter (List.mem_of_mem_filter hd)
    rwa [peerItems, List.mem_singleton] at this
  have hneutral : NeutralSegment privateNode.db privateNode.origin peerItems [] := by
    refine ⟨?_, ?_, ?_, ?_⟩
    · intro d hd id hid
      obtain rfl := hkept d hd
      cases hid
      have htype : ¬StoresType [("id", .str "y"), ("content_type", .str "text/plain"),
          ("_origin", .str "peer"), ("_seq", .int 1)] collectionContentType := by
        rintro ⟨c, hc, heq⟩
        cases hc
        exact absurd heq (by decide)
      refine .inr ⟨?_, fun _ _ => htype, ?_⟩
      · intro r₀ hr₀
        have hnone : (privateNode.db.vertex.lookup "y").isNone = true := by decide +kernel
        rw [hr₀] at hnone
        cases hnone
      · intro cid aid hp
        cases hp
    · intro it hit
      cases hit
    · rintro ⟨d, hd, hu⟩
      obtain rfl := hkept d hd
      exact absurd hu (by decide +kernel)
    · rintro ⟨d, hd, hu⟩
      obtain rfl := hkept d hd
      exact absurd hu (by decide)
  have hid : privateNode.db.Has "x" := by
    unfold Store.Has
    decide +kernel
  have hno : ¬Accepts (fun _ => true) privateNode.db "u" "x" Action.read.name := by
    rw [accepts_iff_acceptsB]
    decide +kernel
  exact ⟨hneutral, hid, hno, applySegment_within_gate litFloat privateNode peerItems [] rfl hneutral
    (fun _ => true) "u" "x" .read hid hno⟩

end Mantle
