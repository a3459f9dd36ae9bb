import Mantle.Db.Documented

/-!
# Mantle.Db.Written — what one artifact write leaves in the tables

`putArtifact_writes` says what stands after a put; one that raises leaves the store as it was.
-/

namespace Mantle

open Tx

variable {a b : Store} {d : Doc} {x y : String}

def ERow.SameEnds (r r' : ERow) : Prop := r'.src = r.src ∧ r'.dst = r.dst ∧ r'.label = r.label

theorem ERow.SameEnds.refl (r : ERow) : r.SameEnds r := ⟨rfl, rfl, rfl⟩

theorem ERow.SameEnds.trans {r r' r'' : ERow} (h : r.SameEnds r') (h' : r'.SameEnds r'') : r.SameEnds r'' :=
  ⟨h'.1.trans h.1, h'.2.1.trans h.2.1, h'.2.2.trans h.2.2⟩

/-- The row of a document: it holds what the document does, but for the stamps, and the stored root stands. -/
structure RowOf (d : Doc) (prev : Option VRow) (r : VRow) : Prop where
  holds : ∀ k ∉ stampKeys, r.doc.val.get k = (d.get k).norm
  root : ∀ p, prev = some p → r.rootId = p.rootId
  fresh : prev = none → bindText ((d.get "root_id").orElse (d.get "id")) = .ok r.rootId

/-- One document written: its row under its id, and at most its containment edge among the edges. -/
structure RowPut (d : Doc) (db db' : Store) : Prop where
  row : ∃ x r, d.get "id" = .str x ∧ RowOf d (db.vertex.lookup x) r ∧ db'.vertex = db.vertex.insert x r
  kept : ∀ key e, db.edge.lookup key = some e → ∃ e', db'.edge.lookup key = some e' ∧ e.SameEnds e'
  placed : ∀ key e', db'.edge.lookup key = some e' → (∃ e, db.edge.lookup key = some e ∧ e.SameEnds e') ∨
    placement d = some (e'.src, e'.dst) ∧ e'.label = "contains"

theorem upsertEdge_ends {old : Option ERow} {row : ERow} :
    (∀ o, old = some o → o.SameEnds (upsertEdge old row)) ∧ (old = none → upsertEdge old row = row) := by
  cases old with
  | none => exact ⟨fun _ h => (nomatch h), fun _ => rfl⟩
  | some o => exact ⟨fun _ h => Option.some.inj h ▸ ERow.SameEnds.refl o, fun h => (nomatch h)⟩

theorem vertexRow_rootId {origin : String} {seq : ℤ} {leaf : ℕ} {row : VRow}
    (h : vertexRow d origin seq leaf = .ok row) :
    bindText ((d.get "root_id").orElse (d.get "id")) = .ok row.rootId :=
  (vertexRow_binds h).2.2.2.1

theorem RowWritten.put {node origin : String} {seq : Val} {db db' : Store} (h : RowWritten node d origin seq db db') :
    RowPut d db db' := by
  obtain ⟨x, s, leaf, row, m, hx, -, hrow, hmv, hme, hpl⟩ := h.row
  obtain ⟨-, -, -, hdoc⟩ := vertexRow_ok hrow
  obtain ⟨-, -, -, hup⟩ := upsertVertex_fields (db.vertex.lookup x) row
  have hof : RowOf d (db.vertex.lookup x) (upsertVertex (db.vertex.lookup x) row) := by
    refine ⟨fun k hk => ?_, fun p hp => ?_, fun hnone => ?_⟩
    · rw [hup, hdoc, Doc.get_norm, stampedDoc_get hk]
    · rw [hp]
      rfl
    · rw [hnone]
      have hroot := vertexRow_rootId hrow
      rwa [stampedDoc_get (by decide), stampedDoc_get (by decide)] at hroot
  refine ⟨⟨x, _, docId_ok hx, hof, (PlaceWritten.edges hpl).1.trans hmv⟩, fun key e he => ?_, fun key e' he' => ?_⟩
  · rw [← hme] at he
    rcases hpl with ⟨hs, -⟩ | ⟨cid, aid, seq', leaf', erow, -, -, -, hw⟩
    · exact ⟨e, hs.edge ▸ he, ERow.SameEnds.refl e⟩
    · rw [hw.edge, Table.lookup_insert_of]
      split_ifs with hk
      · exact ⟨_, rfl, upsertEdge_ends.1 e (hk ▸ he)⟩
      · exact ⟨e, he, ERow.SameEnds.refl e⟩
  · rcases hpl with ⟨hs, -⟩ | ⟨cid, aid, seq', leaf', erow, hp, -, her, hw⟩
    · rw [hs.edge, hme] at he'
      exact .inl ⟨e', he', ERow.SameEnds.refl e'⟩
    · rw [hw.edge, Table.lookup_insert_of] at he'
      split_ifs at he' with hk
      · obtain rfl := Option.some.inj he'
        cases hold : m.edge.lookup (edgeKey cid aid "contains") with
        | some o => exact .inl ⟨o, by rw [hk, ← hme, hold], upsertEdge_ends.1 o rfl⟩
        | none =>
          rw [upsertEdge_ends.2 rfl, edgeRow_src her, (edgeRow_endpoints her).1, (edgeRow_endpoints her).2]
          exact .inr ⟨hp, rfl⟩
      · rw [hme] at he'
        exact .inl ⟨e', he', ERow.SameEnds.refl e'⟩

theorem snapshotDoc_named (x : String) (p : VRow) :
    (snapshotDoc x p).get "id" = .str (snapshotId x p) ∧ (snapshotDoc x p).get "root_id" = p.rootId.orElse (.str x) ∧
      (snapshotDoc x p).get "state" = .str stateArchived := by
  unfold snapshotDoc
  refine ⟨?_, ?_, Doc.get_set_self _ _ _⟩
  · rw [Doc.get_set_of_ne _ _ (by decide), Doc.get_set_of_ne _ _ (by decide), Doc.get_set_self]
  · rw [Doc.get_set_of_ne _ _ (by decide), Doc.get_set_self]

/-- The store as a write finds it once the snapshot it cuts, if any, is stored. -/
def Snapshotted (doc : Doc) (db m : Store) : Prop :=
  SameTables db m ∨ ∃ x p, doc.get "id" = .str x ∧ db.vertex.lookup x = some p ∧
    db.vertex.lookup (snapshotId x p) = none ∧ snapshotId x p ≠ x ∧ RowPut (snapshotDoc x p) db m

/-- What a `put_artifact` that returned leaves. -/
def PutDone (doc : Doc) (db db' : Store) : Prop :=
  ∃ m d m', Snapshotted doc db m ∧ Reparented doc d ∧ RowPut d m m' ∧ SameTables m' db'

section Put

variable {n : Node}

theorem RowPut.of_sameTables {c : Store} (h : RowPut d b c) (hab : SameTables a b) : RowPut d a c where
  row := by
    obtain ⟨x, r, hx, hof, hv⟩ := h.row
    exact ⟨x, r, hx, hab.vertex ▸ hof, hab.vertex ▸ hv⟩
  kept := hab.edge ▸ h.kept
  placed := hab.edge ▸ h.placed

theorem write_undone {α : Type} {body : DbM α} (hn : n.inTxn = false) :
    Runs (write body) n (fun _ n' => n'.inTxn = false) fun n' => n'.db = n.db ∧ n'.inTxn = false := by
  unfold Runs
  rw [write_own hn]
  cases (do let a ← body; flush; pure a : DbM α) n.begin <;> exact (by first | rfl | exact ⟨rfl, rfl⟩)

theorem snapshotPrior_put (x : String) (p : VRow) (doc : Doc) (hx : doc.get "id" = .str x) (m : Node)
    (hp : m.db.vertex.lookup x = some p) :
    Runs (snapshotPrior x p) m (fun _ m' => ∃ m₁, Snapshotted doc m.db m₁ ∧ SameTables m₁ m'.db) fun _ => True := by
  unfold snapshotPrior
  have hsame : ∃ m₁, Snapshotted doc m.db m₁ ∧ SameTables m₁ m.db := ⟨m.db, .inl (SameTables.refl _), SameTables.refl _⟩
  refine runs_ite (fun _ => runs_pure hsame) fun _ => ?_
  refine runs_ite (fun _ => runs_pure hsame) fun hne => runs_bind (runs_bind (runs_get (runs_pure ?_)))
  refine runs_ite (fun _ => runs_pure hsame) fun hthere => ?_
  refine runs_bind ((quiet_versionFor _ true m).imp ?_)
  intro v m₁ h₁
  refine runs_bind ((writeRow_tables _ v.1 v.2 m₁).imp ?_)
  intro _ m₂ h₂
  refine runs_pure ⟨m₂.db, .inr ⟨x, p, hx, hp, ?_, hne, h₂.put.of_sameTables h₁.tables⟩, SameTables.refl _⟩
  simpa using hthere

theorem withSnapshot_put (doc : Doc) (stampRev newVersion : Bool) (m : Node) :
    Runs (withSnapshot doc stampRev newVersion) m
      (fun d m' => Reparented doc d ∧ ∃ m₁, Snapshotted doc m.db m₁ ∧ SameTables m₁ m'.db) fun _ => True := by
  have hsame : ∃ m₁, Snapshotted doc m.db m₁ ∧ SameTables m₁ m.db := ⟨m.db, .inl (SameTables.refl _), SameTables.refl _⟩
  unfold withSnapshot
  refine runs_ite (fun _ => ?_) fun _ => runs_pure ⟨.inl rfl, hsame⟩
  refine runs_bind (runs_ofExcept ?_ trivial)
  intro x hx
  refine runs_read ?_
  cases hp : m.db.vertex.lookup x with
  | none => exact runs_pure ⟨.inl rfl, hsame⟩
  | some p =>
    refine runs_ite (fun _ => ?_) fun _ => runs_pure ⟨.inl rfl, hsame⟩
    refine runs_bind ((snapshotPrior_put x p doc (docId_ok hx) m hp).imp ?_)
    intro snap m' hs
    cases snap with
    | some s => exact runs_pure ⟨.inr ⟨_, rfl⟩, hs⟩
    | none => exact runs_pure ⟨.inr ⟨_, rfl⟩, hs⟩

theorem putArtifact_writes (doc : Doc) (stampRev newVersion : Bool) (hn : n.inTxn = false) :
    Runs (putArtifact doc stampRev newVersion) n (fun _ n' => PutDone doc n.db n'.db ∧ n'.inTxn = false)
      fun n' => n'.db = n.db ∧ n'.inTxn = false := by
  have hdone : Runs (putArtifact doc stampRev newVersion) n (fun _ n' => PutDone doc n.db n'.db) fun _ => True := by
    unfold putArtifact
    refine runs_ite (fun _ => runs_throw trivial) fun _ => ?_
    refine write_runs (Q := PutDone doc n.db) ?_ ?_
    · rintro a b hab ⟨m, d, m', hs, hd, hput, hsame⟩
      exact ⟨m, d, m', hs, hd, hput, hsame.trans hab⟩
    intro m hm
    rw [← hm]
    refine runs_bind ((withSnapshot_put doc stampRev newVersion m).imp ?_)
    rintro d m₁ ⟨hd, m₀, hs, hsame⟩
    refine runs_bind ((quiet_versionFor d stampRev m₁).imp ?_)
    intro v m₂ h₂
    refine runs_bind ((quiet_observeConsumed stampRev v m₂).imp ?_)
    intro _ m₃ h₃
    refine (writeRow_tables d v.1 v.2 m₃).imp ?_
    intro _ m₄ h₄
    exact ⟨m₀, d, m₄.db, hs, hd, h₄.put.of_sameTables (hsame.trans (h₂.trans h₃).tables), SameTables.refl _⟩
  have hundone : Runs (putArtifact doc stampRev newVersion) n (fun _ n' => n'.inTxn = false)
      fun n' => n'.db = n.db ∧ n'.inTxn = false := by
    unfold putArtifact
    exact runs_ite (fun _ => runs_throw ⟨rfl, hn⟩) fun _ => write_undone hn
  exact (hdone.and hundone).mono (fun _ _ h => h) fun _ h => h.2

end Put

/-! ### What the rows of a write keep -/

section Carry

variable {doc : Doc} {db db' : Store}

theorem PutDone.carry {I : Store → Prop} (h : PutDone doc db db') (hsame : ∀ a b, SameTables a b → I a → I b)
    (hsnap : ∀ x p a b, RowPut (snapshotDoc x p) a b → I a → I b)
    (hput : ∀ d a b, Reparented doc d → RowPut d a b → I a → I b) (hI : I db) : I db' := by
  obtain ⟨m, d, m', hs, hd, hrow, hm⟩ := h
  refine hsame m' db' hm (hput d m m' hd hrow ?_)
  rcases hs with hs | ⟨x, p, -, -, -, -, hs⟩
  · exact hsame db m hs hI
  · exact hsnap x p db m hs hI

theorem Reparented.get (h : Reparented doc d) {k : String} (hk : k ≠ "parent_id") : d.get k = doc.get k := by
  rcases h with rfl | ⟨v, rfl⟩
  · rfl
  · exact Doc.get_set_of_ne _ _ fun he => hk he

theorem RowPut.lookup (h : RowPut d db db') {r : VRow} (hr : db'.vertex.lookup y = some r) :
    d.get "id" = .str y ∧ RowOf d (db.vertex.lookup y) r ∨ db.vertex.lookup y = some r := by
  obtain ⟨x, r', hx, hof, hv⟩ := h.row
  rw [hv, Table.lookup_insert_of] at hr
  split_ifs at hr with hy
  · obtain rfl := Option.some.inj hr
    subst hy
    exact .inl ⟨hx, hof⟩
  · exact .inr hr

theorem RowPut.there (h : RowPut d db db') (hy : (db.vertex.lookup y).isSome = true) :
    (db'.vertex.lookup y).isSome = true := by
  obtain ⟨x, r', hx, hof, hv⟩ := h.row
  rw [hv, Table.lookup_insert_of]
  split_ifs
  · rfl
  · exact hy

theorem RowPut.frame (h : RowPut d db db') (hy : d.get "id" = .str y) (hne : y ≠ x) :
    db'.vertex.lookup x = db.vertex.lookup x := by
  obtain ⟨z, r', hz, -, hv⟩ := h.row
  obtain rfl := Val.str.inj (hy.symm.trans hz)
  rw [hv, AList.lookup_insert_ne hne.symm]

theorem PutDone.frame (h : PutDone doc db db') {r : VRow} (hy : doc.get "id" = .str y) (hne : y ≠ x)
    (hr : db.vertex.lookup x = some r) : db'.vertex.lookup x = some r := by
  obtain ⟨m, d, m', hs, hd, hrow, hm⟩ := h
  rw [hm.vertex, hrow.frame ((hd.get (by decide)).trans hy) hne]
  rcases hs with hs | ⟨z, p, -, -, hfree, -, hs⟩
  · rw [hs.vertex, hr]
  · rw [hs.frame (snapshotDoc_named z p).1, hr]
    rintro rfl
    rw [hr] at hfree
    cases hfree

theorem PutDone.there (h : PutDone doc db db') (hy : (db.vertex.lookup y).isSome = true) :
    (db'.vertex.lookup y).isSome = true :=
  h.carry (I := fun s => (s.vertex.lookup y).isSome = true) (fun _ _ hs hi => hs.vertex ▸ hi)
    (fun _ _ _ _ hr => hr.there) (fun _ _ _ _ hr => hr.there) hy

theorem PutDone.kept (h : PutDone doc db db') {key : EdgeKey} {e : ERow} (he : db.edge.lookup key = some e) :
    ∃ e', db'.edge.lookup key = some e' ∧ e.SameEnds e' := by
  have hrow : ∀ d a b, RowPut d a b → (∃ e', a.edge.lookup key = some e' ∧ e.SameEnds e') →
      ∃ e', b.edge.lookup key = some e' ∧ e.SameEnds e' := by
    rintro d a b hr ⟨e', he', hends⟩
    obtain ⟨e'', he'', hends'⟩ := hr.kept key e' he'
    exact ⟨e'', he'', hends.trans hends'⟩
  exact h.carry (I := fun s => ∃ e', s.edge.lookup key = some e' ∧ e.SameEnds e') (fun _ _ hs hi => hs.edge ▸ hi)
    (fun _ _ a b hr => hrow _ a b hr) (fun _ a b _ hr => hrow _ a b hr) ⟨e, he, ERow.SameEnds.refl e⟩

theorem PutDone.own (h : PutDone doc db db') (hx : doc.get "id" = .str x) :
    ∃ r, db'.vertex.lookup x = some r ∧ ∀ k ∉ "parent_id" :: stampKeys, r.doc.val.get k = (doc.get k).norm := by
  obtain ⟨m, d, m', -, hd, hrow, hm⟩ := h
  obtain ⟨y, r, hy, hof, hv⟩ := hrow.row
  rw [hd.get (by decide), hx] at hy
  obtain rfl := Val.str.inj hy
  refine ⟨r, by rw [hm.vertex, hv, AList.lookup_insert], fun k hk => ?_⟩
  rw [List.mem_cons, not_or] at hk
  rw [hof.holds k hk.2, hd.get hk.1]

end Carry

/-! ### Rows under their ids -/

/-- Every row is under the id its document has. -/
def Named (db : Store) : Prop := ∀ x r, db.vertex.lookup x = some r → x ≠ "" ∧ r.doc.val.get "id" = .str x

theorem Named.put (h : RowPut d a b) (hid : d.get "id" = .str x) (hx : x ≠ "") (ha : Named a) : Named b := by
  intro y r hr
  rcases h.lookup hr with ⟨hy, hof⟩ | hr
  · obtain rfl := Val.str.inj (hid.symm.trans hy)
    refine ⟨hx, ?_⟩
    rw [hof.holds "id" (by decide), hid]
    rfl
  · exact ha y r hr

theorem Named.putDone {doc : Doc} (h : PutDone doc a b) (hid : doc.get "id" = .str x) (hx : x ≠ "") (ha : Named a) :
    Named b := by
  refine h.carry (I := Named) (fun _ _ hs hn => by unfold Named; rw [hs.vertex]; exact hn) ?_ ?_ ha
  · intro y p a' b' hr hn
    exact hn.put hr (snapshotDoc_named y p).1 (snapshotId_ne y p)
  · intro d a' b' hd hr hn
    exact hn.put hr ((hd.get (by decide)).trans hid) hx

end Mantle
