import Mantle.Db.Tasks

/-!
# Mantle.Db.Documented — a row and its document agree

`_write_row` stores a document that carries the row's own id, number and type, and an edge lies under the digest of its
triple.
-/

namespace Mantle

open Tx

variable {I : Store → Prop} {e : EdgeSpec} {id origin : String} {leaf : ℕ} {row : ERow} {seq : ℤ}

/-- Every edge lies under the key of its triple, and what it holds would be stored again as it is. -/
structure EdgesSound (db : Store) : Prop where
  keyed : ∀ key r, db.edge.lookup key = some r → key = edgeKey r.src r.dst r.label
  plain : ∀ key r, db.edge.lookup key = some r → blobOf r.props.val = r.props.val
  flagged : ∀ key r, db.edge.lookup key = some r → r.isOrigin ∈ [none, some 0, some 1]
  settled : ∀ key r, db.edge.lookup key = some r → r.props.val.norm = r.props.val
  bound : ∀ key r, db.edge.lookup key = some r →
    bindText r.propagate = .ok r.propagate ∧ bindText r.orderKey = .ok r.orderKey

structure Documented (db : Store) : Prop extends EdgesSound db where
  named : ∀ id r, db.vertex.lookup id = some r → id ≠ "" ∧ r.doc.val.get "id" = .str id
  numbered : ∀ id r, db.vertex.lookup id = some r → r.doc.val.get "_seq" = .int r.seq
  normal : ∀ id r, db.vertex.lookup id = some r → r.doc.val.norm = r.doc.val
  typed : ∀ id r, db.vertex.lookup id = some r →
    r.ct = r.doc.val.get "content_type" ∧ (r.ct = .none ∨ ∃ s, r.ct = .str s)

/-- What is asked of a document: an id, a type that is a text if there is one, and a number that is no
truth value. -/
structure WrittenDoc (d : Doc) : Prop where
  id : (d.get "id").truthy = true
  seq : ∀ b, d.get "_seq" ≠ .bool b
  type : d.get "content_type" = .none ∨ ∃ s, d.get "content_type" = .str s

def Act.Documents (_ : Store) : Act → Prop
  | .putArtifact doc _ _ => WrittenDoc doc
  | .putMany docs _ _ _ => ∀ d ∈ docs, WrittenDoc d
  | .settle _ _ _ _ _ fields => Json.KeysNodup fields ∧
    ∀ k ∈ ["id", "_seq", "content_type"], fields.find? k = none
  | _ => True

section Keep

variable {db db' : Store}

/-! ### Edges -/

theorem EdgesSound.of_rows (h : EdgesSound db)
    (hrow : ∀ k e, db'.edge.lookup k = some e → db.edge.lookup k = some e) : EdgesSound db' where
  keyed k e he := h.keyed k e (hrow k e he)
  plain k e he := h.plain k e (hrow k e he)
  flagged k e he := h.flagged k e (hrow k e he)
  settled k e he := h.settled k e (hrow k e he)
  bound k e he := h.bound k e (hrow k e he)

theorem EdgesSound.of_edge (h : EdgesSound db) (he : db'.edge = db.edge) : EdgesSound db' :=
  h.of_rows fun _ _ hk => he ▸ hk

theorem EdgesSound.retireEdge (h : EdgesSound db) (key : EdgeKey) (label : String) (leaf : ℕ)
    (r : ERow) : EdgesSound (db.retireEdge key label leaf r) := by
  refine h.of_rows fun k e he => ?_
  rw [show (db.retireEdge key label leaf r).edge = db.edge.erase key from rfl,
    Table.lookup_erase_of] at he
  split_ifs at he
  exact he

theorem blobOf_norm (d : Doc) : blobOf d.norm = (blobOf d).norm := by
  unfold blobOf Doc.without Doc.norm
  rw [List.filter_map]
  rfl

theorem blobOf_blobOf (d : Doc) : blobOf (blobOf d) = blobOf d := by
  unfold blobOf Doc.without
  rw [List.filter_filter]
  simp

theorem bindText_bound {v c : Val} (h : bindText v = .ok c) : bindText c = .ok c := by
  cases v with
  | int n =>
    change (bindInt n).map (fun m => Val.str (toString m)) = .ok c at h
    cases hb : bindInt n with
    | error e =>
      rw [hb] at h
      cases h
    | ok m =>
      rw [hb] at h
      cases h
      rfl
  | list xs => cases h
  | tuple xs => cases h
  | dict items => cases h
  | _ =>
    cases h
    rfl

theorem edgeRow_src (h : edgeRow e origin seq leaf = .ok row) : row.src = e.src := by
  obtain ⟨_, _, _, _, -, -, -, -, -, rfl⟩ := edgeRow_stored h
  rfl

theorem EdgesSound.acceptEdge (h : EdgesSound db) {key : EdgeKey} (hash : ℕ)
    (hkey : key = edgeKey e.src e.dst e.label) (hrow : edgeRow e origin seq leaf = .ok row) :
    EdgesSound (db.acceptEdge key e.label (upsertEdge (db.edge.lookup key) row) hash) := by
  obtain ⟨hed, -⟩ := Store.acceptEdge_tables db key e.label (upsertEdge (db.edge.lookup key) row) hash
  obtain ⟨-, hprop, hord, hflag, hprops⟩ := edgeRow_content hrow
  obtain ⟨hlabel, hdst⟩ := edgeRow_endpoints hrow
  -- on a conflict the triple of the stored row stands, and it has the same key
  have hup : key = edgeKey (upsertEdge (db.edge.lookup key) row).src
      (upsertEdge (db.edge.lookup key) row).dst (upsertEdge (db.edge.lookup key) row).label := by
    cases ho : db.edge.lookup key with
    | none =>
      change key = edgeKey row.src row.dst row.label
      rw [hkey, edgeRow_src hrow, hdst, hlabel]
    | some o => exact h.keyed key o ho
  have hsame : (upsertEdge (db.edge.lookup key) row).props = row.props ∧
      (upsertEdge (db.edge.lookup key) row).isOrigin = row.isOrigin ∧
      (upsertEdge (db.edge.lookup key) row).propagate = row.propagate ∧
      (upsertEdge (db.edge.lookup key) row).orderKey = row.orderKey := by
    cases db.edge.lookup key <;> exact ⟨rfl, rfl, rfl, rfl⟩
  obtain ⟨hsp, hsi, hsg, hso⟩ := hsame
  have hnew : ∀ k r, (db.acceptEdge key e.label (upsertEdge (db.edge.lookup key) row) hash).edge.lookup
      k = some r → k = key ∧ r = upsertEdge (db.edge.lookup key) row ∨ db.edge.lookup k = some r := by
    intro k r hr
    rw [hed, Table.lookup_insert_of] at hr
    split_ifs at hr with hk
    · cases hr
      exact .inl ⟨hk, rfl⟩
    · exact .inr hr
  refine ⟨?_, ?_, ?_, ?_, ?_⟩
  · intro k r hr
    rcases hnew k r hr with ⟨rfl, rfl⟩ | hr
    · exact hup
    · exact h.keyed k r hr
  · intro k r hr
    rcases hnew k r hr with ⟨-, rfl⟩ | hr
    · rw [hsp, hprops, blobOf_norm, blobOf_blobOf]
    · exact h.plain k r hr
  · intro k r hr
    rcases hnew k r hr with ⟨-, rfl⟩ | hr
    · rw [hsi, hflag]
      unfold normIsOrigin
      split_ifs <;> simp
    · exact h.flagged k r hr
  · intro k r hr
    rcases hnew k r hr with ⟨-, rfl⟩ | hr
    · rw [hsp, hprops, Doc.norm_norm]
    · exact h.settled k r hr
  · intro k r hr
    rcases hnew k r hr with ⟨-, rfl⟩ | hr
    · rw [hsg, hso]
      exact ⟨bindText_bound hprop, bindText_bound hord⟩
    · exact h.bound k r hr

def OfEdges (I : Store → Prop) : Prop := ∀ a b : Store, b.edge = a.edge → I a → I b

theorem OfEdges.rowRules (hE : OfEdges I)
    (haccept : ∀ db key e origin seq leaf row h, EdgeNamed key e origin →
      edgeRow e origin seq leaf = .ok row → I db →
      I (db.acceptEdge key e.label (upsertEdge (db.edge.lookup key) row) h))
    (hretire : ∀ db key leaf r, db.edge.lookup key = some r → I db →
      I (db.retireEdge key r.label leaf r)) : RowRules I fun _ => True where
  seq := fun db _ h => hE db _ rfl h
  conflict := fun db h => ⟨hE db _ rfl h, hE db _ rfl h⟩
  accept := haccept
  retire := hretire
  reparent := fun _ _ _ => trivial
  row := fun db _ _ _ _ _ _ _ _ _ _ _ _ _ _ h => hE db _ (Store.rowStored_rows db _ _ _ _ _).2.1 h

theorem edgesSound_rowRules : RowRules EdgesSound fun _ => True :=
  OfEdges.rowRules (fun _ _ he h => h.of_edge he)
    (fun _ _ _ _ _ _ _ hash hn hrow h => h.acceptEdge hash hn.1 hrow)
    fun _ key leaf r _ h => h.retireEdge key r.label leaf r

/-! ### Rows -/

theorem Documented.of_tables (h : Documented db) (hv : db'.vertex = db.vertex)
    (he : db'.edge = db.edge) : Documented db' where
  toEdgesSound := h.toEdgesSound.of_edge he
  named := hv ▸ h.named
  numbered := hv ▸ h.numbered
  normal := hv ▸ h.normal
  typed := hv ▸ h.typed

theorem Documented.of_edges (h : Documented db) (hv : db'.vertex = db.vertex)
    (he : EdgesSound db') : Documented db' where
  toEdgesSound := he
  named := hv ▸ h.named
  numbered := hv ▸ h.numbered
  normal := hv ▸ h.normal
  typed := hv ▸ h.typed

theorem Documented.insertRow (h : Documented db) {row : VRow} (hv : db'.vertex = db.vertex.insert id row)
    (he : db'.edge = db.edge) (hne : id ≠ "") (hid : row.doc.val.get "id" = .str id)
    (hseq : row.doc.val.get "_seq" = .int row.seq) (hnorm : row.doc.val.norm = row.doc.val)
    (htype : row.ct = row.doc.val.get "content_type" ∧ (row.ct = .none ∨ ∃ s, row.ct = .str s)) :
    Documented db' := by
  have hrow : ∀ x r, db'.vertex.lookup x = some r → x = id ∧ r = row ∨ db.vertex.lookup x = some r := by
    intro x r hr
    rw [hv, Table.lookup_insert_of] at hr
    split_ifs at hr with hx
    · cases hr
      exact .inl ⟨hx, rfl⟩
    · exact .inr hr
  refine ⟨h.toEdgesSound.of_edge he, ?_, ?_, ?_, ?_⟩
  · intro x r hr
    rcases hrow x r hr with ⟨rfl, rfl⟩ | hr
    · exact ⟨hne, hid⟩
    · exact h.named x r hr
  · intro x r hr
    rcases hrow x r hr with ⟨rfl, rfl⟩ | hr
    · exact hseq
    · exact h.numbered x r hr
  · intro x r hr
    rcases hrow x r hr with ⟨rfl, rfl⟩ | hr
    · exact hnorm
    · exact h.normal x r hr
  · intro x r hr
    rcases hrow x r hr with ⟨rfl, rfl⟩ | hr
    · exact htype
    · exact h.typed x r hr

theorem Documented.eraseRow (h : Documented db) (hv : db'.vertex = db.vertex.erase id)
    (he : db'.edge = db.edge) : Documented db' := by
  have hrow : ∀ x r, db'.vertex.lookup x = some r → db.vertex.lookup x = some r := by
    intro x r hr
    rw [hv, Table.lookup_erase_of] at hr
    split_ifs at hr
    exact hr
  exact ⟨h.toEdgesSound.of_edge he, fun x r hr => h.named x r (hrow x r hr),
    fun x r hr => h.numbered x r (hrow x r hr), fun x r hr => h.normal x r (hrow x r hr),
    fun x r hr => h.typed x r (hrow x r hr)⟩

theorem stampedDoc_seq (doc : Doc) (origin : String) (seq : Val) (prev : Option VRow) :
    (stampedDoc doc origin seq prev).get "_seq" = seq := by
  have hattr : ∀ d : Doc, (attributeTime d origin).get "_seq" = d.get "_seq" := by
    intro d
    unfold attributeTime
    split_ifs
    · rfl
    · rfl
    · exact Doc.get_set_of_ne _ _ (by decide)
  have hkeep : ∀ d : Doc, (keepTime d prev).get "_seq" = d.get "_seq" := by
    intro d
    unfold keepTime
    cases prev with
    | none => rfl
    | some p =>
      dsimp only
      split_ifs
      · rfl
      · exact Doc.get_set_of_ne _ _ (by decide)
      · rw [Doc.get_set_of_ne _ _ (by decide), Doc.get_set_of_ne _ _ (by decide)]
  unfold stampedDoc
  rw [hkeep, hattr, Doc.get_set_self]

theorem documented_rowRules : RowRules Documented WrittenDoc where
  seq := fun _ _ h => h.of_tables rfl rfl
  conflict := fun _ h => ⟨h.of_tables rfl rfl, h.of_tables rfl rfl⟩
  accept := fun db key e origin seq leaf row hash hn hrow h =>
    h.of_edges (Store.acceptEdge_tables _ _ _ _ _).2 (h.toEdgesSound.acceptEdge hash hn.1 hrow)
  retire := fun _ key leaf r _ h => h.of_edges rfl (h.toEdgesSound.retireEdge key r.label leaf r)
  reparent := by
    intro doc v h
    refine ⟨?_, ?_, ?_⟩
    · rw [Doc.get_set_of_ne _ _ (by decide)]
      exact h.id
    · rw [Doc.get_set_of_ne _ _ (by decide)]
      exact h.seq
    · rw [Doc.get_set_of_ne _ _ (by decide)]
      exact h.type
  row := by
    intro db aid doc origin seq s leaf row t hok hver haid hs hrow _ hdb
    obtain ⟨hv, he, -⟩ := Store.rowStored_rows db aid (stampedDoc doc origin seq (db.vertex.lookup aid))
      row seq t
    obtain ⟨-, hrs, -, hrd⟩ := vertexRow_ok hrow
    obtain ⟨-, hus, -, hud⟩ := upsertVertex_fields (db.vertex.lookup aid) row
    have hct : (upsertVertex (db.vertex.lookup aid) row).ct = row.ct := by
      cases db.vertex.lookup aid <;> rfl
    have hid := docId_ok haid
    have hseq : seq = .int s := by
      rcases hver.2 with ⟨k, rfl⟩ | hd
      · cases hs
        rfl
      · cases hval : seq with
        | int k =>
          rw [hval] at hs
          cases hs
          rfl
        | bool b => exact absurd (hd.symm.trans hval) (hok.seq b)
        | _ =>
          rw [hval] at hs
          cases hs
    refine hdb.insertRow hv he ?_ ?_ ?_ ?_ ?_
    · rintro rfl
      have := hok.id
      rw [hid] at this
      simp at this
    · rw [hud, hrd, Doc.get_norm, stampedDoc_get (by decide), hid]
      rfl
    · rw [hud, hrd, Doc.get_norm, stampedDoc_seq, hus, hrs, hseq]
      rfl
    · rw [hud, hrd, Doc.norm_norm]
    · rw [hct, hud, hrd, Doc.get_norm, stampedDoc_get (by decide)]
      have hbind := vertexRow_ct hrow
      rw [stampedDoc_get (by decide)] at hbind
      rcases hok.type with htype | ⟨x, htype⟩
      · rw [htype] at hbind ⊢
        rw [← Except.ok.inj hbind]
        exact ⟨rfl, .inl rfl⟩
      · rw [htype] at hbind ⊢
        rw [← Except.ok.inj hbind]
        exact ⟨rfl, .inr ⟨x, rfl⟩⟩

theorem Documented.snapshot (h : Documented db) {aid : String} {p : VRow}
    (hp : db.vertex.lookup aid = some p) : WrittenDoc (snapshotDoc aid p) where
  id := by
    rw [snapshotDoc_id, Val.truthy_str, decide_eq_true_eq]
    exact snapshotId_ne aid p
  seq := by
    intro b
    rw [snapshotDoc_get (by decide) (by decide) (by decide), h.numbered aid p hp]
    exact fun he => by cases he
  type := by
    rw [snapshotDoc_get (by decide) (by decide) (by decide), ← (h.typed aid p hp).1]
    exact (h.typed aid p hp).2

theorem Documented.patched (h : Documented db) {r : VRow} {col : JsonCol}
    (hr : db.vertex.lookup id = some r) (hv : db'.vertex = db.vertex.insert id { r with doc := col })
    (he : db'.edge = db.edge) (hnorm : col.val.norm = col.val)
    (hkeep : ∀ k ∈ ["id", "_seq", "content_type"], col.val.get k = r.doc.val.get k) :
    Documented db' := by
  refine h.insertRow hv he (h.named id r hr).1 ?_ ?_ hnorm ?_
  · exact (hkeep "id" (by decide)).trans (h.named id r hr).2
  · exact (hkeep "_seq" (by decide)).trans (h.numbered id r hr)
  · exact ⟨(h.typed id r hr).1.trans (hkeep "content_type" (by decide)).symm, (h.typed id r hr).2⟩

theorem Documented.moved (h : Documented db) {t t' : TaskRow} {fields : Doc}
    (hm : TaskMoved id t t' fields db db') (hf : Json.KeysNodup fields)
    (hkeys : ∀ k ∈ ["id", "_seq", "content_type"], fields.find? k = none) : Documented db' := by
  rcases hm.vertex with ⟨-, hv⟩ | ⟨r, col, hr, hcol, hv⟩
  · exact h.of_tables hv hm.edge
  · refine h.patched hr hv hm.edge (by rw [Doc.toCol_ok hcol, Doc.norm_norm]) ?_
    intro k hk
    rw [Doc.toCol_ok hcol, get_patched (h.normal id r hr) hf, hkeys k hk]
    rfl

theorem documented_relabelChunk (old new : String) (chunk : List String) {n : Node} :
    Keeps Documented (relabelChunk old new chunk) n := by
  have hbumps : ∀ (db : Store) (deltas : List (String × ℤ)), Documented db → Documented (db.bumps deltas) :=
    fun db deltas h =>
      h.of_tables (Store.bumps_sameRows deltas db).vertex (Store.bumps_sameRows deltas db).edge
  refine keeps_relabelChunk ?_ (fun db _ _ h => hbumps db _ h) (fun db _ _ _ _ h => hbumps db _ h) chunk
  · intro db aid r col h hr hcol
    have hval : col.val = r.doc.val.set "state" (.str new) := by
      rcases hcol with hcol | hcol
      · exact hcol
      · rw [hcol, Doc.norm_set, h.normal aid r hr]
        rfl
    refine h.patched hr rfl rfl ?_ ?_
    · rw [hval, Doc.norm_set, h.normal aid r hr]
      rfl
    · intro k hk
      rw [hval]
      refine Doc.get_set_of_ne _ _ ?_
      rintro rfl
      exact absurd hk (by decide)

end Keep

/-! ### Runs -/

theorem OfEdges.exec (hE : OfEdges I) (hI : RowRules I fun _ => True) (a : Act) (n : Node) (ha : a.Single) :
    Keeps I (exec a) n := by
  have hbumps : ∀ (db : Store) (deltas : List (String × ℤ)), I db → I (db.bumps deltas) :=
    fun db deltas h => hE db _ (Store.bumps_sameRows deltas db).edge h
  refine hI.toEdgeRules.exec ha ?_ ?_ ?_ ?_ fun hp => keeps_patches hI.seq hp ?_ fun hm h => hE _ _ hm.edge h
  · exact fun _ _ _ _ => keeps_putArtifact hI fun _ _ => trivial
  · exact fun _ b _ u _ => keeps_putMany hI b u fun _ _ => trivial
  · exact fun _ _ _ leaf r _ hr hn => hE (n.db.retireEdge _ r.label leaf r) _ rfl (hI.retire _ _ leaf r hr hn)
  · exact fun db id b r _ _ _ h => hE _ _ (Store.rowDeleted_rows db id r b).2.1 h
  · exact fun _ _ chunk _ => keeps_relabelChunk (fun db _ _ _ h _ _ => hE db _ rfl h)
      (fun db _ _ h => hbumps db _ h) (fun db _ _ _ _ h => hbumps db _ h) chunk

theorem Act.meets_true : ∀ (a : Act) (db : Store), a.Meets (fun _ _ => True) db := by
  refine Act.induct (Q := Act.AllMeet fun _ _ => True) ?_ ?_ ?_ ?_
  · exact fun a ha db => (Act.meets_single ha db).mpr trivial
  · exact fun acts raises ih db => by rwa [Act.Meets]
  · rw [Act.AllMeet]
    trivial
  · intro a acts ha ih
    rw [Act.AllMeet]
    exact ⟨ha, ih⟩

theorem edgesSound_exec (a : Act) (n : Node) : Keeps EdgesSound (exec a) n :=
  keeps_exec (P := fun _ _ => True) edgesSound_rowRules.seq
    (fun a n ha _ => OfEdges.exec (fun _ _ he h => h.of_edge he) edgesSound_rowRules a n ha) a n
    (Act.meets_true a n.db)

theorem documented_exec (a : Act) (n : Node) (ha : a.Single) (h : a.Documents n.db) :
    Keeps Documented (exec a) n := by
  have hrules := documented_rowRules
  refine hrules.toEdgeRules.exec ha ?_ ?_ ?_ ?_ fun hp => ?_
  · rintro doc stampRev newVersion rfl hn
    refine keeps_putArtifact hrules ?_ hn
    intro d hd
    rcases mem_putRows hd with rfl | ⟨aid, p, hp, rfl⟩
    · exact h
    · exact hn.snapshot hp
  · rintro docs batch stampRev onUnordered rfl
    exact keeps_putMany hrules batch onUnordered h
  · exact fun _ _ _ leaf r _ _ hn => hn.of_edges rfl (hn.toEdgesSound.retireEdge _ _ leaf r)
  · exact fun db id b r _ _ _ hn => hn.eraseRow (Store.rowDeleted_rows db id r b).1 (Store.rowDeleted_rows db id r b).2.1
  cases a with
  | relabelState old new batch limit exclude =>
    exact keeps_discard (keeps_relabelState hrules.seq
      (fun _ _ chunk _ _ => documented_relabelChunk _ _ chunk) batch limit exclude n)
  | tryClaim id worker now =>
    refine keeps_discard ((tryClaim_transits id worker now n).keeps ?_)
    intro t db' _ _ hm hn
    exact hn.moved hm (by simp [Json.KeysNodup]) (by simp [Doc.find?])
  | renewLease id now =>
    refine keeps_discard ((renewLease_transits id now n).keeps ?_)
    intro t db' _ _ hm hn
    exact hn.moved hm (by simp [Json.KeysNodup]) (by simp [Doc.find?])
  | release id toStatus next =>
    refine keeps_discard ((release_transits id toStatus next n).keeps ?_)
    intro t db' _ _ hm hn
    exact hn.moved hm (by simp [Json.KeysNodup]) (by simp [Doc.find?])
  | settle id worker toStatus next done fields =>
    refine keeps_discard ((settle_transits id worker toStatus next done fields n).keeps ?_)
    intro t db' _ _ hm hn
    refine hn.moved hm (Doc.keysNodup_update h.1 _) ?_
    intro k hk
    rw [Doc.find?_update (by simp [Json.KeysNodup]), h.2 k hk]
    simp only [List.mem_cons, List.not_mem_nil, or_false] at hk
    rcases hk with rfl | rfl | rfl <;> rfl
  | _ => exact hp.elim

theorem edgesSound_empty : EdgesSound Store.empty where
  keyed := fun key r h => by cases h
  plain := fun key r h => by cases h
  flagged := fun key r h => by cases h
  settled := fun key r h => by cases h
  bound := fun key r h => by cases h

theorem Node.runMeets_true : ∀ (acts : List Act) (n : Node), n.RunMeets (fun _ _ => True) acts
  | [], _ => trivial
  | a :: acts, n => ⟨Act.meets_true a n.db, Node.runMeets_true acts (n.after a)⟩

theorem edgesSound_run (origin : Origin) (leaves : ℕ+) (acts : List Act) :
    EdgesSound ((Node.fresh origin leaves).run acts).db :=
  (keeps_run (P := fun _ _ => True) edgesSound_rowRules.seq (fun a n _ _ => edgesSound_exec a n) acts _
    (Node.runMeets_true acts _) edgesSound_empty rfl).1

theorem documented_empty : Documented Store.empty where
  toEdgesSound := edgesSound_empty
  named := fun id r h => by cases h
  numbered := fun id r h => by cases h
  normal := fun id r h => by cases h
  typed := fun id r h => by cases h

theorem documented_run (origin : Origin) (leaves : ℕ+) (acts : List Act)
    (h : (Node.fresh origin leaves).RunMeets Act.Documents acts) :
    Documented ((Node.fresh origin leaves).run acts).db :=
  (keeps_run documented_rowRules.seq documented_exec acts _ h documented_empty rfl).1

end Mantle
