import Mantle.Db.Tables

/-!
# Mantle.Db.Place — what an artifact write does to containment edges

Every artifact write ends in `_place`, which upserts the edge from the document's collection to its root.  `RowEffect`
says what one `_write_row` does to the edge table.
-/

namespace Mantle

open Tx Relation

/-! ### Edges and placements -/

/-- The edge carries no mask, no order key and no force. -/
def ERow.Bare (r : ERow) : Prop := r.propagate = .none ∧ r.orderKey = .none ∧ r.force = .none

def ERow.SameAttrs (r r' : ERow) : Prop :=
  r'.propagate = r.propagate ∧ r'.orderKey = r.orderKey ∧ r'.force = r.force

/-- The document names a container that is there, and its containment edge has this key. -/
def PlacesAt (doc : Doc) (has : String → Prop) (key : EdgeKey) : Prop :=
  ∃ cid aid, placement doc = some (cid, aid) ∧ edgeKey cid aid "contains" = key ∧ has cid

/-- What one `_write_row` does to the ids and to the edges. -/
structure RowEffect (doc : Doc) (db db' : Store) : Prop where
  has : ∀ x, db'.Has x ↔ db.Has x ∨ doc.get "id" = .str x
  placed : ∀ key, PlacesAt doc db'.Has key → ∃ r, db'.edge.lookup key = some r ∧ r.Bare
  frame : ∀ key, ¬PlacesAt doc db'.Has key → db'.edge.lookup key = db.edge.lookup key

theorem RowEffect.of_sameTables {doc : Doc} {a b c d : Store} (h : RowEffect doc b c)
    (hab : SameTables a b) (hcd : SameTables c d) : RowEffect doc a d where
  has x := by
    rw [hcd.has, h.has, hab.has]
  placed key hk := by
    rw [hcd.has] at hk
    rw [hcd.edge]
    exact h.placed key hk
  frame key hk := by
    rw [hcd.has] at hk
    rw [hcd.edge, h.frame key hk, hab.edge]

/-! ### `_place` and `_write_row` -/

theorem edgeRow_place_bare {cid aid origin : String} {seq : ℤ} {leaf : ℕ} {row : ERow}
    (h : edgeRow (placeSpec cid aid) origin seq leaf = .ok row) : row.Bare := by
  obtain ⟨hf, hg, ho, -, -⟩ := edgeRow_content h
  exact ⟨(Except.ok.inj hg).symm, (Except.ok.inj ho).symm, (Except.ok.inj hf).symm⟩

theorem upsertEdge_bare {old : Option ERow} {row : ERow} (h : row.Bare) :
    (upsertEdge old row).Bare := by
  cases old <;> exact h

theorem PlaceWritten.edges {origin : String} {doc : Doc} {db db' : Store}
    (h : PlaceWritten origin doc db db') :
    db'.vertex = db.vertex ∧
      (∀ key, PlacesAt doc db.Has key → ∃ r, db'.edge.lookup key = some r ∧ r.Bare) ∧
      ∀ key, ¬PlacesAt doc db.Has key → db'.edge.lookup key = db.edge.lookup key := by
  rcases h with ⟨hs, hno⟩ | ⟨cid, aid, seq, leaf, row, hp, hc, hrow, hw⟩
  · refine ⟨hs.vertex, ?_, fun _ _ => by rw [hs.edge]⟩
    rintro key ⟨cid, aid, hp, -, hc⟩
    exact absurd hc (hno cid aid hp)
  · refine ⟨hw.vertex, ?_, ?_⟩
    · rintro key ⟨c, a, hp', rfl, -⟩
      rw [hp] at hp'
      cases hp'
      exact ⟨_, by rw [hw.edge, AList.lookup_insert], upsertEdge_bare (edgeRow_place_bare hrow)⟩
    · intro key hk
      have hne : key ≠ edgeKey cid aid "contains" := fun h => hk ⟨cid, aid, hp, h.symm, hc⟩
      rw [hw.edge, AList.lookup_insert_ne hne]

theorem RowWritten.effect {node : String} {doc : Doc} {origin : String} {seq : Val} {db db' : Store}
    (h : RowWritten node doc origin seq db db') : RowEffect doc db db' := by
  obtain ⟨aid, s, leaf, row, m, haid, -, -, hmv, hme, hpl⟩ := h.row
  obtain ⟨hv, hplaced, hframe⟩ := hpl.edges
  have hhas : db'.Has = m.Has := by
    unfold Store.Has
    rw [hv]
  refine ⟨?_, ?_, ?_⟩
  · intro x
    rw [hhas]
    unfold Store.Has
    rw [hmv, Table.lookup_insert_of, docId_ok haid]
    by_cases hx : x = aid
    · simp [hx]
    · simp [hx, Ne.symm hx]
  · intro key hk
    rw [hhas] at hk
    exact hplaced key hk
  · intro key hk
    rw [hhas] at hk
    rw [hframe key hk, hme]

theorem writeRow_effect (doc : Doc) (origin : String) (seq : Val) (n : Node) :
    Runs (writeRow doc origin seq) n (fun _ n' => RowEffect doc n.db n'.db) fun _ => True :=
  (writeRow_tables doc origin seq n).imp fun _ _ h => h.effect

/-! ### Sequences of rows -/

def RowsEffect : List Doc → Store → Store → Prop
  | [], db, db' => SameTables db db'
  | d :: ds, db, db' => ∃ m, RowEffect d db m ∧ RowsEffect ds m db'

theorem RowsEffect.of_sameTables : ∀ {ds : List Doc} {a b c d : Store}, RowsEffect ds b c →
    SameTables a b → SameTables c d → RowsEffect ds a d
  | [], _, _, _, _, h, hab, hcd => (hab.trans h).trans hcd
  | _ :: _, _, _, _, _, ⟨m, h, hs⟩, hab, hcd =>
    ⟨m, h.of_sameTables hab (SameTables.refl m), hs.of_sameTables (SameTables.refl m) hcd⟩

theorem RowsEffect.append : ∀ {ds es : List Doc} {a b c : Store}, RowsEffect ds a b →
    RowsEffect es b c → RowsEffect (ds ++ es) a c
  | [], _, _, _, c, h, h' => h'.of_sameTables h (SameTables.refl c)
  | _ :: _, _, _, _, _, ⟨m, h, hs⟩, h' => ⟨m, h, hs.append h'⟩

/-- One of the rows is placed at the key: its container is there, or came with a row up to it. -/
def Rewrites : List Doc → (String → Prop) → EdgeKey → Prop
  | [], _, _ => False
  | d :: ds, has, key =>
    PlacesAt d (fun x => has x ∨ d.get "id" = .str x) key ∨
      Rewrites ds (fun x => has x ∨ d.get "id" = .str x) key

theorem RowsEffect.edges : ∀ {ds : List Doc} {db db' : Store}, RowsEffect ds db db' → ∀ key,
    (Rewrites ds db.Has key → ∃ r, db'.edge.lookup key = some r ∧ r.Bare) ∧
      (¬Rewrites ds db.Has key → db'.edge.lookup key = db.edge.lookup key)
  | [], _, _, h, key => ⟨False.elim, fun _ => by rw [h.edge]⟩
  | d :: ds, db, db', ⟨m, h, hs⟩, key => by
    have hm : m.Has = fun x => db.Has x ∨ d.get "id" = .str x := funext fun x => propext (h.has x)
    obtain ⟨hbare, hkeep⟩ := hs.edges key
    unfold Rewrites
    rw [← hm]
    refine ⟨?_, ?_⟩
    · intro hr
      by_cases hlater : Rewrites ds m.Has key
      · exact hbare hlater
      · rw [hkeep hlater]
        exact h.placed key (hr.resolve_right hlater)
    · intro hr
      rw [not_or] at hr
      rw [hkeep hr.2, h.frame key hr.1]

/-! ### The ways into `_write_row` -/

/-- The document `_snapshot_prior` writes. -/
def snapshotDoc (aid : String) (prev : VRow) : Doc :=
  ((prev.doc.val.set "id" (.str (snapshotId aid prev))).set "root_id"
    (prev.rootId.orElse (.str aid))).set "state" (.str stateArchived)

/-- What `_snapshot_prior` hands to `_write_row`. -/
def snapshotRows (db : Store) (aid : String) (prev : VRow) : List Doc :=
  if prev.doc.val.isEmpty ∨ snapshotId aid prev = aid ∨
      (db.vertex.lookup (snapshotId aid prev)).isSome then []
  else [snapshotDoc aid prev]

def cutsVersion (doc : Doc) (newVersion : Bool) (prev : VRow) : Bool :=
  newVersion || (prev.contentRef.truthy && !prev.contentRef.eqCol (doc.get "content_ref"))

/-- What `put_artifact` hands to `_write_row`: perhaps a snapshot, then the document. -/
def putRows (db : Store) (doc : Doc) (stampRev newVersion : Bool) : List Doc :=
  (if stampRev && ((doc.get "content_ref").truthy || newVersion) then
    match (doc.get "id").asStr with
    | none => []
    | some aid =>
      match db.vertex.lookup aid with
      | none => []
      | some p => if cutsVersion doc newVersion p then snapshotRows db aid p else []
  else []) ++ [doc]

/-- An artifact write: a whole `put_artifact` or `update_artifact`, one document of a `put_many`, or
one `_snapshot_prior`. -/
inductive ArtifactWrite
  | put (doc : Doc) (stampRev newVersion : Bool)
  | update (contentChanged : Option Doc → Doc → Bool) (doc : Doc)
  | one (stampRev : Bool) (onUnordered : OnUnordered) (doc : Doc)
  | snapshot (aid : String) (prev : VRow)

namespace ArtifactWrite

/-- The document that is written. -/
def doc : ArtifactWrite → Doc
  | .put d _ _ => d
  | .update _ d => d
  | .one _ _ d => d
  | .snapshot aid prev => snapshotDoc aid prev

def perform : ArtifactWrite → DbM PUnit
  | .put d stampRev newVersion => do
    let _ ← putArtifact d stampRev newVersion
    pure ⟨⟩
  | .update contentChanged d => do
    let _ ← updateArtifact contentChanged d
    pure ⟨⟩
  | .one stampRev onUnordered d => do
    let _ ← putOne stampRev onUnordered d
    pure ⟨⟩
  | .snapshot aid prev => do
    let _ ← snapshotPrior aid prev
    pure ⟨⟩

/-- The document `update_artifact` finds under the id. -/
def prior (db : Store) (d : Doc) : Option Doc :=
  (d.get "id").asStr.bind fun id => (db.vertex.lookup id).map fun r => r.doc.val

/-- The documents the write hands to `_write_row`, in order. -/
def rows (db : Store) : ArtifactWrite → List Doc
  | .put d stampRev newVersion => putRows db d stampRev newVersion
  | .update contentChanged d => putRows db d true (contentChanged (prior db d) d)
  | .one stampRev onUnordered d => oneRows db stampRev onUnordered d
  | .snapshot aid prev => snapshotRows db aid prev

end ArtifactWrite

theorem RowEffect.congr_doc {doc d : Doc} {a b : Store} (h : RowEffect d a b)
    (hp : placement d = placement doc) (hid : d.get "id" = doc.get "id") : RowEffect doc a b := by
  have hpl : ∀ has key, PlacesAt doc has key ↔ PlacesAt d has key := by
    intro has key
    unfold PlacesAt
    rw [hp]
  refine ⟨fun x => by rw [h.has, hid], ?_, ?_⟩
  · intro key hk
    exact h.placed key ((hpl _ key).mp hk)
  · intro key hk
    exact h.frame key fun h' => hk ((hpl _ key).mpr h')

theorem Reparented.placement {doc d : Doc} (h : Reparented doc d) :
    placement d = Mantle.placement doc ∧ d.get "id" = doc.get "id" := by
  rcases h with rfl | ⟨v, rfl⟩
  · exact ⟨rfl, rfl⟩
  · unfold Mantle.placement
    rw [Doc.get_set_of_ne _ _ (by decide), Doc.get_set_of_ne _ _ (by decide),
      Doc.get_set_of_ne _ _ (by decide)]
    exact ⟨rfl, rfl⟩

theorem writeRow_rows (doc : Doc) (origin : String) (seq : Val) (n : Node) :
    Runs (writeRow doc origin seq) n (fun _ n' => RowsEffect [doc] n.db n'.db) fun _ => True :=
  (writeRow_effect doc origin seq n).mono
    (fun _ n' h => ⟨n'.db, h, SameTables.refl n'.db⟩) fun _ h => h

theorem snapshotPrior_rows (aid : String) (prev : VRow) (n : Node) :
    Runs (snapshotPrior aid prev) n
      (fun _ n' => RowsEffect (snapshotRows n.db aid prev) n.db n'.db) fun _ => True := by
  unfold snapshotPrior snapshotRows
  refine runs_ite ?_ fun h1 => runs_ite ?_ fun h2 => runs_bind (runs_bind (runs_get (runs_pure ?_)))
  · intro h1
    rw [if_pos (.inl h1)]
    exact runs_pure (SameTables.refl n.db)
  · intro h2
    rw [if_pos (.inr (.inl h2))]
    exact runs_pure (SameTables.refl n.db)
  · refine runs_ite ?_ fun h3 => ?_
    · intro h3
      rw [if_pos (.inr (.inr h3))]
      exact runs_pure (SameTables.refl n.db)
    · rw [if_neg (by simp [h1, h2, h3])]
      refine runs_bind ((quiet_versionFor _ true n).imp ?_)
      intro v n₁ h₁
      refine runs_bind ((writeRow_rows _ v.1 v.2 n₁).imp ?_)
      intro _ n₂ h₂
      exact runs_pure (h₂.of_sameTables h₁.tables (SameTables.refl _))

theorem withSnapshot_rows (doc : Doc) (stampRev newVersion : Bool) (n : Node) :
    Runs (withSnapshot doc stampRev newVersion) n
      (fun d n' => Reparented doc d ∧ ∃ snaps, putRows n.db doc stampRev newVersion = snaps ++ [doc] ∧
        RowsEffect snaps n.db n'.db) fun _ => True := by
  unfold withSnapshot putRows
  refine runs_ite ?_ ?_
  · intro hc
    rw [if_pos hc]
    refine runs_bind (runs_ofExcept ?_ trivial)
    intro aid haid
    refine runs_read ?_
    rw [docId_ok haid]
    simp only [Val.asStr_str]
    cases n.db.vertex.lookup aid with
    | none => exact runs_pure ⟨.inl rfl, [], rfl, SameTables.refl n.db⟩
    | some p =>
      refine runs_ite ?_ ?_
      · intro hv
        have hcut : cutsVersion doc newVersion p = true := hv
        simp only [hcut, if_true]
        refine runs_bind ((snapshotPrior_rows aid p n).imp ?_)
        intro snap n' hs
        cases snap with
        | some s => exact runs_pure ⟨.inr ⟨_, rfl⟩, _, rfl, hs⟩
        | none => exact runs_pure ⟨.inr ⟨_, rfl⟩, _, rfl, hs⟩
      · intro hv
        have hcut : ¬cutsVersion doc newVersion p = true := hv
        simp only [hcut]
        exact runs_pure ⟨.inl rfl, [], rfl, SameTables.refl n.db⟩
  · intro hc
    rw [if_neg hc]
    exact runs_pure ⟨.inl rfl, [], rfl, SameTables.refl n.db⟩

theorem rowsEffect_sameTables {ds : List Doc} {a b c : Store} (h : SameTables b c)
    (hs : RowsEffect ds a b) : RowsEffect ds a c :=
  hs.of_sameTables (SameTables.refl a) h

theorem putArtifact_rows (doc : Doc) (stampRev newVersion : Bool) (n : Node) :
    Runs (putArtifact doc stampRev newVersion) n
      (fun _ n' => RowsEffect (putRows n.db doc stampRev newVersion) n.db n'.db) fun _ => True := by
  unfold putArtifact
  refine runs_ite (fun _ => runs_throw trivial) fun _ => ?_
  refine write_runs (Q := RowsEffect (putRows n.db doc stampRev newVersion) n.db)
    (fun a b h hs => rowsEffect_sameTables h hs) ?_
  intro m hm
  rw [← hm]
  refine runs_bind ((withSnapshot_rows doc stampRev newVersion m).imp ?_)
  rintro d m₁ ⟨hd, snaps, hrows, hs⟩
  rw [hrows]
  refine runs_bind ((quiet_versionFor d stampRev m₁).imp ?_)
  intro v m₂ h₂
  refine runs_bind ((quiet_observeConsumed stampRev v m₂).imp ?_)
  intro _ m₃ h₃
  refine (writeRow_effect d v.1 v.2 m₃).imp ?_
  intro _ m₄ h₄
  refine (rowsEffect_sameTables (h₂.trans h₃).tables hs).append ⟨m₄.db, ?_, SameTables.refl _⟩
  exact h₄.congr_doc hd.placement.1 hd.placement.2

theorem putWritten_rows (doc : Doc) (v : String × Val) (n : Node) :
    Runs (putWritten doc v) n (fun _ n' => RowsEffect [doc] n.db n'.db) fun _ => True :=
  runs_bind ((writeRow_rows doc v.1 v.2 n).imp fun _ _ h => runs_pure h)

theorem putOne_rows (stampRev : Bool) (onUnordered : OnUnordered) (doc : Doc) (n : Node) :
    Runs (putOne stampRev onUnordered doc) n
      (fun _ n' => RowsEffect (oneRows n.db stampRev onUnordered doc) n.db n'.db)
      fun _ => True := by
  cases stampRev with
  | true =>
    unfold putOne
    refine runs_ite (fun _ => runs_throw trivial) fun _ => ?_
    refine runs_bind ((quiet_versionFor doc true n).imp ?_)
    intro v n₁ h₁
    exact (putWritten_rows doc v n₁).mono
      (fun _ n₂ h => h.of_sameTables h₁.tables (SameTables.refl _)) fun _ h => h
  | false =>
    refine (putOne_tables onUnordered doc n).imp ?_
    rintro - n' ⟨-, ⟨hrows, hs⟩ | ⟨hrows, origin, s, -, hw⟩⟩
    · rw [hrows]
      exact hs
    · rw [hrows]
      exact ⟨n'.db, hw.effect, SameTables.refl _⟩

theorem ArtifactWrite.perform_rows (w : ArtifactWrite) (n : Node) :
    Runs w.perform n (fun _ n' => RowsEffect (w.rows n.db) n.db n'.db) fun _ => True := by
  cases w with
  | put d stampRev newVersion =>
    exact runs_bind ((putArtifact_rows d stampRev newVersion n).mono
      (fun _ _ h => runs_pure h) fun _ h => h)
  | update contentChanged d =>
    refine runs_bind (runs_bind (runs_bind (runs_get (runs_pure ?_))))
    exact (putArtifact_rows d true _ n).imp fun _ _ h => runs_pure h
  | one stampRev onUnordered d =>
    exact runs_bind ((putOne_rows stampRev onUnordered d n).mono
      (fun _ _ h => runs_pure h) fun _ h => h)
  | snapshot aid prev =>
    exact runs_bind ((snapshotPrior_rows aid prev n).imp fun _ _ h => runs_pure h)

/-! ### The containment edge of a written document -/

def containmentEdge (db : Store) (doc : Doc) : Option ERow :=
  match placement doc with
  | none => none
  | some (cid, aid) => db.edge.lookup (edgeKey cid aid "contains")

def ArtifactWrite.RewritesEdge (w : ArtifactWrite) (db : Store) : Prop :=
  ∃ cid aid, placement w.doc = some (cid, aid) ∧
    Rewrites (w.rows db) db.Has (edgeKey cid aid "contains")

theorem keeps_iff {db db' : Store} {key : EdgeKey} {r : ERow} {rewritten : Prop}
    (hbare : rewritten → ∃ b, db'.edge.lookup key = some b ∧ b.Bare)
    (hkeep : ¬rewritten → db'.edge.lookup key = db.edge.lookup key)
    (hr : db.edge.lookup key = some r) :
    (∃ r', db'.edge.lookup key = some r' ∧ r.SameAttrs r') ↔ r.Bare ∨ ¬rewritten := by
  by_cases hrw : rewritten
  · obtain ⟨b, hb, hb1, hb2, hb3⟩ := hbare hrw
    constructor
    · rintro ⟨r', hr', h1, h2, h3⟩
      rw [hb] at hr'
      cases hr'
      exact .inl ⟨h1.symm.trans hb1, h2.symm.trans hb2, h3.symm.trans hb3⟩
    · intro h
      obtain ⟨h1, h2, h3⟩ := h.resolve_right (not_not_intro hrw)
      exact ⟨b, hb, hb1.trans h1.symm, hb2.trans h2.symm, hb3.trans h3.symm⟩
  · constructor
    · exact fun _ => .inr hrw
    · intro _
      exact ⟨r, (hkeep hrw).trans hr, rfl, rfl, rfl⟩

/-- **What a write keeps of an existing containment edge**: the mask, the order key and the force stand exactly when the
edge had none of them, or the write places no row at it. -/
theorem write_keeps_edge_iff (w : ArtifactWrite) {n n' : Node} {r : ERow}
    (hw : w.perform n = .ok ⟨⟩ n') (hr : containmentEdge n.db w.doc = some r) :
    (∃ r', containmentEdge n'.db w.doc = some r' ∧ r.SameAttrs r') ↔
      r.Bare ∨ ¬w.RewritesEdge n.db := by
  unfold ArtifactWrite.RewritesEdge
  unfold containmentEdge at hr ⊢
  cases hp : placement w.doc with
  | none =>
    rw [hp] at hr
    cases hr
  | some p =>
    obtain ⟨cid, aid⟩ := p
    rw [hp] at hr
    obtain ⟨hbare, hkeep⟩ := ((w.perform_rows n).ok hw).edges (edgeKey cid aid "contains")
    have hiff : (∃ c a, some (cid, aid) = some (c, a) ∧
        Rewrites (w.rows n.db) n.db.Has (edgeKey c a "contains")) ↔
        Rewrites (w.rows n.db) n.db.Has (edgeKey cid aid "contains") := by
      constructor
      · rintro ⟨c, a, h, hrw⟩
        cases h
        exact hrw
      · exact fun hrw => ⟨cid, aid, rfl, hrw⟩
    rw [hiff]
    exact keeps_iff hbare hkeep hr

def maskedNode : Node :=
  hereNode.run
    [.putArtifact [("id", .str "c")] true false,
     .putArtifact [("id", .str "a"), ("collection_id", .str "c")] true false,
     .addEdges [.tuple (.str "c") (.str "a") (.str "contains")
       [("is_origin", .int 1), ("propagate", .str "read"), ("order_key", .str "m")]] 1000 true]

def maskedEdit : ArtifactWrite :=
  .put [("id", .str "a"), ("collection_id", .str "c"), ("title", .str "new")] true false

theorem maskedEdit_perform : ∃ n' r r', maskedEdit.perform maskedNode = .ok ⟨⟩ n' ∧
    containmentEdge maskedNode.db maskedEdit.doc = some r ∧
    containmentEdge n'.db maskedEdit.doc = some r' ∧ r.propagate.eqStr "read" = true ∧
    r'.propagate.eqStr "read" = false := by
  have h : ((endState (maskedEdit.perform maskedNode)).any fun n' => (containmentEdge maskedNode.db maskedEdit.doc).any fun r =>
      (containmentEdge n'.db maskedEdit.doc).any fun r' => r.propagate.eqStr "read" && !r'.propagate.eqStr "read") = true := by
    decide +kernel
  obtain ⟨n', hn, h⟩ := (Option.any_eq_true _ _).mp h
  obtain ⟨r, hr, h⟩ := (Option.any_eq_true _ _).mp h
  obtain ⟨r', hr', h⟩ := (Option.any_eq_true _ _).mp h
  obtain ⟨⟨⟩, hu⟩ := endState_some hn
  rw [Bool.and_eq_true, Bool.not_eq_true'] at h
  exact ⟨n', r, r', hu, hr, hr', h⟩

theorem maskedEdit_drops_mask :
    ¬ ∀ (w : ArtifactWrite) (n n' : Node) (r : ERow), w.perform n = .ok ⟨⟩ n' →
      containmentEdge n.db w.doc = some r →
      ∃ r', containmentEdge n'.db w.doc = some r' ∧ r.SameAttrs r' := by
  intro h
  obtain ⟨n', r, r', hn, hr, hr', hm, hm'⟩ := maskedEdit_perform
  obtain ⟨r₂, hr₂, hp, -, -⟩ := h maskedEdit maskedNode n' r hn hr
  rw [hr'] at hr₂
  cases hr₂
  rw [hp, hm] at hm'
  cases hm'

theorem write_keeps_edge_iff_maskedEdit :
    ∃ n' r, maskedEdit.perform maskedNode = .ok ⟨⟩ n' ∧
      containmentEdge maskedNode.db maskedEdit.doc = some r ∧
      ((∃ r', containmentEdge n'.db maskedEdit.doc = some r' ∧ r.SameAttrs r') ↔
        r.Bare ∨ ¬maskedEdit.RewritesEdge maskedNode.db) := by
  obtain ⟨n', r, -, hn, hr, -⟩ := maskedEdit_perform
  exact ⟨n', r, hn, hr, write_keeps_edge_iff maskedEdit hn hr⟩

end Mantle
