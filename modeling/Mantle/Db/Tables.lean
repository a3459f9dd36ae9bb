import Mantle.Db.Run

/-!
# Mantle.Db.Tables — what writes do to the two tables

The statements of a write touch neither table (`Quiet`), or put one row in.  `Inside` and `Top` carry an invariant of
the tables through savepoints, transactions and bulk writes.
-/

namespace Mantle

open Tx Relation

variable {arg : EdgeArg} {d : Doc} {e : EdgeSpec} {node : String} {row : ERow} {seq : ℤ} {α : Type}

variable {doc : Doc} {key : EdgeKey} {n : Node} {origin : String} {γ : Type}

def Store.Has (db : Store) (id : String) : Prop := (db.vertex.lookup id).isSome

structure SameTables (db db' : Store) : Prop where
  vertex : db'.vertex = db.vertex
  edge : db'.edge = db.edge

theorem SameTables.refl (db : Store) : SameTables db db := ⟨rfl, rfl⟩

variable {a b c : Store}

theorem SameTables.trans (h : SameTables a b) (h' : SameTables b c) :
    SameTables a c := ⟨h'.vertex.trans h.vertex, h'.edge.trans h.edge⟩

theorem SameTables.has (h : SameTables a b) : b.Has = a.Has := by
  unfold Store.Has
  rw [h.vertex]

/-! ### The statements that touch neither table -/

/-- Neither table changes, and the node stays who it is. -/
structure Untouched (n n' : Node) : Prop where
  tables : SameTables n.db n'.db
  origin : n'.origin = n.origin

theorem Untouched.refl (n : Node) : Untouched n n := ⟨SameTables.refl n.db, rfl⟩

theorem Untouched.trans {a b c : Node} (h : Untouched a b) (h' : Untouched b c) : Untouched a c :=
  ⟨h.tables.trans h'.tables, h'.origin.trans h.origin⟩

/-- Started in `n`, the statement touches neither table if it returns. -/
def Quiet {α : Type} (m : DbM α) (n : Node) : Prop :=
  Runs m n (fun _ n' => Untouched n n') fun _ => True

section Quiet

variable {α β : Type}

theorem quiet_pure (a : α) (n : Node) : Quiet (pure a) n := runs_pure (Untouched.refl n)

theorem quiet_bind {m : DbM α} {f : α → DbM β} (h : Quiet m n) (hf : ∀ a n', Quiet (f a) n') :
    Quiet (m >>= f) n := by
  refine runs_bind (h.imp ?_)
  intro a n' hs
  exact (hf a n').imp fun _ _ hs' => hs.trans hs'

theorem quiet_onDb {f : Store → Store} (h : SameTables n.db (f n.db)) :
    Quiet (onDb f) n := runs_modify ⟨h, rfl⟩

theorem bumps_sameTables : ∀ (deltas : List (String × ℤ)) (db : Store),
    SameTables db (deltas.foldl (fun db e => db.bump e.1 e.2) db)
  | [], db => SameTables.refl db
  | e :: deltas, db => by
    have h : SameTables db (db.bump e.1 e.2) := ⟨rfl, rfl⟩
    exact h.trans (bumps_sameTables deltas (db.bump e.1 e.2))

theorem quiet_recount (old : Option Doc) (new : Doc) (oldCt newCt : Val) (n : Node) :
    Quiet (recount old new oldCt newCt) n := by
  refine quiet_bind ?_ fun _ n' => quiet_onDb (bumps_sameTables _ n'.db)
  unfold countNew
  split_ifs
  · exact quiet_onDb ⟨rfl, rfl⟩
  · exact quiet_pure _ n

theorem quiet_syncTask (aid : String) (old new : Option Doc) (ct : Val) (n : Node) :
    Quiet (syncTask aid old new ct) n := by
  refine quiet_bind ?_ fun _ n' => ?_
  · unfold uncountTask
    split
    · exact quiet_onDb ⟨rfl, rfl⟩
    · exact quiet_pure _ n
  · unfold storeTask
    split
    · split_ifs
      · refine quiet_bind (quiet_onDb ⟨rfl, rfl⟩) fun _ n'' => ?_
        exact runs_bind (runs_ofExcept (fun row _ => runs_modify ⟨⟨rfl, rfl⟩, rfl⟩) trivial)
      · exact quiet_onDb ⟨rfl, rfl⟩
    · exact quiet_onDb ⟨rfl, rfl⟩

theorem quiet_observeSeq (origin : String) (seq : ℤ) (n : Node) : Quiet (observeSeq origin seq) n :=
  runs_bind (runs_ofExcept (fun _ _ => runs_modify ⟨⟨rfl, rfl⟩, rfl⟩) trivial)

theorem quiet_observeIncoming (origin : String) (seq : Val) (n : Node) :
    Quiet (observeIncoming origin seq) n := by
  unfold observeIncoming
  split
  · exact quiet_pure _ n
  · exact quiet_observeSeq _ _ n

theorem quiet_versionFor (doc : Doc) (stampRev : Bool) (n : Node) :
    Quiet (versionFor doc stampRev) n := by
  cases stampRev with
  | true => exact ⟨⟨rfl, rfl⟩, rfl⟩
  | false =>
    exact (versionFor_consumed doc n).mono (fun _ _ h => by rw [h.1]; exact Untouched.refl _)
      fun _ _ => trivial

end Quiet

/-! ### Reading versions -/

theorem docId_ok {aid : String} (h : docId doc = .ok aid) : doc.get "id" = .str aid := by
  unfold docId at h
  split at h
  · rename_i s hs
    cases h
    exact hs
  · cases h

/-- How a consumed document stands against the row of its id. -/
def verdictOf (db : Store) (doc : Doc) : VersionOrder :=
  match bindText (doc.get "id") with
  | .ok (.str id) =>
    match db.vertex.lookup id with
    | none => .newer
    | some r => compareVersion (doc.get "_origin") (doc.get "_seq") r.origin r.seq
  | _ => .newer

theorem compareVersion_newer_iff {o s : Val} :
    compareVersion o s origin seq = .newer ↔
      o.eqStr origin = true ∧ ∃ a, s.asInt = some a ∧ seq < a := by
  unfold compareVersion
  cases s.asInt with
  | none =>
    dsimp only
    split_ifs <;> simp
  | some a =>
    dsimp only
    cases o.eqStr origin with
    | false => simp
    | true =>
      simp only [Bool.true_eq_false, if_false, true_and, Option.some.injEq, exists_eq_left']
      split_ifs with h1 h2
      · simp [h1]
      · simp [h1]
      · simp [h1]

theorem verdictOf_text {id : String} (hid : d.get "id" = .str id) (db : Store) :
    verdictOf db d = match db.vertex.lookup id with
      | none => .newer
      | some r => compareVersion (d.get "_origin") (d.get "_seq") r.origin r.seq := by
  unfold verdictOf
  rw [hid]
  rfl

theorem lww_runs (doc : Doc) (origin : String) (n : Node) (hd : doc.get "_origin" = .str origin) :
    Runs (lww (doc.get "id") origin (doc.get "_seq")) n
      (fun v n' => v = verdictOf n.db doc ∧ n' = n) fun _ => True := by
  unfold lww rowById verdictOf
  refine runs_bind (runs_bind (runs_ofExcept ?_ trivial))
  intro c hc
  rw [hc, hd]
  cases c with
  | str id =>
    refine runs_bind (runs_get (runs_pure ?_))
    dsimp only
    cases n.db.vertex.lookup id with
    | none => exact runs_pure ⟨rfl, rfl⟩
    | some r => exact runs_pure ⟨rfl, rfl⟩
  | _ => exact runs_pure (runs_pure ⟨rfl, rfl⟩)

theorem quiet_observeConsumed (stampRev : Bool) (v : String × Val) (n : Node) :
    Quiet (observeConsumed stampRev v) n := by
  unfold observeConsumed
  split_ifs
  · exact quiet_pure _ n
  · exact quiet_observeIncoming _ _ n

theorem placement_stampedDoc (doc : Doc) (origin : String) (seq : Val) (prev : Option VRow) :
    placement (stampedDoc doc origin seq prev) = placement doc := by
  unfold placement
  rw [stampedDoc_get (by decide), stampedDoc_get (by decide), stampedDoc_get (by decide)]

/-! ### Rows that are put in -/

/-- The tables with one edge row put in: the endpoints and the label of a stored row stand. -/
structure EdgeWritten (key : EdgeKey) (row : ERow) (db db' : Store) : Prop where
  vertex : db'.vertex = db.vertex
  edge : db'.edge = db.edge.insert key (upsertEdge (db.edge.lookup key) row)

def TakenOver (old : Option ERow) (origin : String) (seq : ℤ) : Prop :=
  ∀ r, old = some r → compareVersion (.str origin) (.int seq) r.origin r.seq = .newer

/-- What `_add_one` does with a consumed edge: nothing, or its row under its own version. -/
def EdgeConsumed (arg : EdgeArg) (db db' : Store) : Prop :=
  SameTables db db' ∨ ∃ e origin seq leaf row, unpack arg = .ok e ∧
    incomingVersion (e.props.get "_origin") (e.props.get "_seq") = some (origin, seq) ∧
    edgeRow e origin seq leaf = .ok row ∧
    TakenOver (db.edge.lookup (edgeKey e.src e.dst e.label)) origin seq ∧
    EdgeWritten (edgeKey e.src e.dst e.label) row db db'

variable {db : Store}

theorem edgeWritten_acceptEdge {label : String} {h : ℕ} :
    EdgeWritten key row db (db.acceptEdge key label (upsertEdge (db.edge.lookup key) row) h) :=
  ⟨(Store.acceptEdge_tables _ _ _ _ _).2, (Store.acceptEdge_tables _ _ _ _ _).1⟩

theorem writeEdge_tables {leaf : ℕ} {old : Option ERow} (hold : n.db.edge.lookup key = old) :
    Runs (writeEdge key leaf e old origin seq) n
      (fun _ n' => ∃ row, edgeRow e origin seq leaf = .ok row ∧ EdgeWritten key row n.db n'.db)
      fun _ => True := by
  refine (writeEdge_runs hold).mono ?_ fun _ _ => trivial
  rintro - n' ⟨row, h, hrow, -, rfl⟩
  subst hold
  exact ⟨row, hrow, edgeWritten_acceptEdge⟩

theorem EdgeWritten.of_sameTables (h : EdgeWritten key row b c) (hab : SameTables a b) :
    EdgeWritten key row a c := by
  refine ⟨h.vertex.trans hab.vertex, ?_⟩
  rw [h.edge, hab.edge]

/-- What `_add_one` does with a consumed edge that it handles: its row under its own version where that is
taken over, else nothing. -/
def EdgeHandled (arg : EdgeArg) (db db' : Store) : Prop :=
  ∃ e origin seq, unpack arg = .ok e ∧
    incomingVersion (e.props.get "_origin") (e.props.get "_seq") = some (origin, seq) ∧
    ((¬TakenOver (db.edge.lookup (edgeKey e.src e.dst e.label)) origin seq ∧ SameTables db db') ∨
      TakenOver (db.edge.lookup (edgeKey e.src e.dst e.label)) origin seq ∧
        ∃ leaf row, edgeRow e origin seq leaf = .ok row ∧
          EdgeWritten (edgeKey e.src e.dst e.label) row db db')

theorem EdgeHandled.consumed {db' : Store} (h : EdgeHandled arg db db') :
    EdgeConsumed arg db db' := by
  obtain ⟨e, origin, seq, he, hv, ⟨-, hs⟩ | ⟨ht, leaf, row, hrow, hw⟩⟩ := h
  · exact .inl hs
  · exact .inr ⟨e, origin, seq, leaf, row, he, hv, hrow, ht, hw⟩

theorem addOne_handled (leaves : ℕ+) (arg : EdgeArg) (n : Node) :
    Runs (addOne leaves arg false) n (fun k n' => k = 1 ∧ EdgeHandled arg n.db n'.db) fun _ => True := by
  unfold addOne
  refine runs_bind (runs_ofExcept ?_ trivial)
  intro e he
  refine runs_read ?_
  simp only [Bool.false_eq_true, if_false]
  cases hv : incomingVersion (e.props.get "_origin") (e.props.get "_seq") with
  | none => exact runs_throw trivial
  | some v =>
    obtain ⟨origin, seq⟩ := v
    refine runs_bind ((quiet_observeSeq origin seq n).imp ?_)
    rintro - n₁ ⟨h₁, -⟩
    have hold : n₁.db.edge.lookup (edgeKey e.src e.dst e.label) =
        n.db.edge.lookup (edgeKey e.src e.dst e.label) := by
      rw [h₁.edge]
    -- the row is taken over what the key holds
    have hwrite : TakenOver (n.db.edge.lookup (edgeKey e.src e.dst e.label)) origin seq →
        Runs (writeEdge (edgeKey e.src e.dst e.label)
          (leafOf (keyHex (edgeKey e.src e.dst e.label)) leaves) e
          (n.db.edge.lookup (edgeKey e.src e.dst e.label)) origin seq) n₁
          (fun _ n₂ => EdgeHandled arg n.db n₂.db) fun _ => True := by
      intro hnew
      refine (writeEdge_tables hold).imp ?_
      rintro - n₂ ⟨row, hrow, hw⟩
      exact ⟨e, origin, seq, he, hv, .inr ⟨hnew, _, row, hrow, hw.of_sameTables h₁⟩⟩
    have hkept : ¬TakenOver (n.db.edge.lookup (edgeKey e.src e.dst e.label)) origin seq →
        ∀ {m : Store}, SameTables n.db m → EdgeHandled arg n.db m :=
      fun hno _ hs => ⟨e, origin, seq, he, hv, .inl ⟨hno, hs⟩⟩
    cases ho : n.db.edge.lookup (edgeKey e.src e.dst e.label) with
    | none =>
      rw [ho] at hwrite
      refine runs_bind ((hwrite ?_).imp fun _ _ h => runs_pure ⟨rfl, h⟩)
      intro r hr
      cases hr
    | some o =>
      rw [ho] at hwrite hkept
      dsimp only
      cases hc : compareVersion (.str origin) (.int seq) o.origin o.seq with
      | newer =>
        refine runs_bind ((hwrite ?_).imp fun _ _ h => runs_pure ⟨rfl, h⟩)
        intro r hr
        cases hr
        exact hc
      | unordered =>
        have hno : ¬TakenOver (some o) origin seq := fun h => by simp [h o rfl] at hc
        exact runs_bind (runs_modify (runs_pure ⟨rfl, hkept hno (h₁.trans ⟨rfl, rfl⟩)⟩))
      | older =>
        have hno : ¬TakenOver (some o) origin seq := fun h => by simp [h o rfl] at hc
        exact runs_pure ⟨rfl, hkept hno h₁⟩
      | same =>
        have hno : ¬TakenOver (some o) origin seq := fun h => by simp [h o rfl] at hc
        exact runs_pure ⟨rfl, hkept hno h₁⟩

theorem addOne_tables (leaves : ℕ+) (arg : EdgeArg) (n : Node) :
    Runs (addOne leaves arg false) n (fun _ n' => EdgeConsumed arg n.db n'.db) fun _ => True :=
  (addOne_handled leaves arg n).imp fun _ _ h => h.2.consumed

theorem addOne_stamped (leaves : ℕ+) (hu : unpack arg = .ok e) (n : Node) :
    Runs (addOne leaves arg true) n (fun _ n' => ∃ seq leaf row, edgeRow e n.origin seq leaf = .ok row ∧
      EdgeWritten (edgeKey e.src e.dst e.label) row n.db n'.db) fun _ => True := by
  unfold addOne
  refine runs_bind (runs_ofExcept ?_ trivial)
  intro e' he
  rw [hu] at he
  cases he
  refine runs_read ?_
  refine runs_bind (runs_get (runs_bind ((allocate_runs _ _).imp ?_)))
  rintro seq n₁ ⟨-, rfl⟩
  refine runs_bind ((writeEdge_tables rfl).imp ?_)
  rintro - n₂ ⟨row, hrow, hw⟩
  exact runs_pure ⟨_, _, row, hrow, hw⟩

/-- The edge `_place` writes for a container and a member. -/
def placeSpec (cid aid : String) : EdgeSpec := ⟨cid, aid, "contains", placeProps aid⟩

/-- What `_place` does: nothing when there is no container, else the containment edge under a version
of this node. -/
def PlaceWritten (origin : String) (doc : Doc) (db db' : Store) : Prop :=
  (SameTables db db' ∧ ∀ cid aid, placement doc = some (cid, aid) → ¬db.Has cid) ∨
    ∃ cid aid seq leaf row, placement doc = some (cid, aid) ∧ db.Has cid ∧
      edgeRow (placeSpec cid aid) origin seq leaf = .ok row ∧
      EdgeWritten (edgeKey cid aid "contains") row db db'

theorem place_tables (doc : Doc) (n : Node) :
    Runs (place doc) n (fun _ n' => PlaceWritten n.origin doc n.db n'.db) fun _ => True := by
  unfold place
  cases hp : placement doc with
  | none =>
    refine runs_pure (.inl ⟨SameTables.refl n.db, ?_⟩)
    intro cid aid h
    rw [hp] at h
    cases h
  | some p =>
    obtain ⟨cid, aid⟩ := p
    refine runs_bind (runs_get ?_)
    cases hv : n.db.vertex.lookup cid with
    | none =>
      refine runs_modify (.inl ⟨⟨rfl, rfl⟩, ?_⟩)
      intro c a h
      rw [hp] at h
      cases h
      unfold Store.Has
      rw [hv]
      simp
    | some r =>
      have hhas : n.db.Has cid := by
        unfold Store.Has
        rw [hv]
        rfl
      refine runs_bind (runs_modify (runs_bind ?_))
      cases hu : unpack (.tuple (.str cid) (.str aid) (.str "contains") (placeProps aid)) with
      | error e =>
        unfold addOne
        refine runs_bind (runs_ofExcept ?_ trivial)
        intro e' he
        rw [hu] at he
        cases he
      | ok e =>
        have he : e = placeSpec cid aid := by
          unfold unpack unpackFields at hu
          simp only at hu
          split_ifs at hu
          cases hu
          rfl
        subst he
        refine (addOne_stamped _ hu _).imp ?_
        rintro - n₂ ⟨seq, leaf, row, hrow, hw⟩
        exact runs_pure (.inr ⟨cid, aid, seq, leaf, row, hp, hhas, hrow, hw⟩)

/-- **What `_write_row` does to the tables**: the row of the stamped document, then its placement. -/
structure RowWritten (node : String) (doc : Doc) (origin : String) (seq : Val) (db db' : Store) :
    Prop where
  row : ∃ aid s leaf row m, docId doc = .ok aid ∧ seq.asInt = some s ∧
    vertexRow (stampedDoc doc origin seq (db.vertex.lookup aid)) origin s leaf = .ok row ∧
    m.vertex = db.vertex.insert aid (upsertVertex (db.vertex.lookup aid) row) ∧ m.edge = db.edge ∧
    PlaceWritten node doc m db'

theorem PlaceWritten.congr_doc (h : PlaceWritten origin d a b) (hp : placement d = placement doc) :
    PlaceWritten origin doc a b := by
  unfold PlaceWritten at h ⊢
  rwa [← hp]

theorem writeRow_tables (doc : Doc) (origin : String) (seq : Val) (n : Node) :
    Runs (writeRow doc origin seq) n
      (fun _ n' => RowWritten n.origin doc origin seq n.db n'.db) fun _ => True := by
  unfold writeRow
  refine runs_bind (runs_ofExcept ?_ trivial)
  intro aid haid
  refine runs_bind (runs_get (runs_bind ((writeVertex_runs rfl).mono ?_ fun _ _ => trivial)))
  rintro - n₁ ⟨s, row, hs, hrow, rfl⟩
  refine runs_bind ((quiet_recount _ _ _ _ _).imp ?_)
  intro _ n₂ h₂
  refine runs_bind ((quiet_syncTask _ _ _ _ _).imp ?_)
  intro _ n₃ h₃
  have hm := h₂.trans h₃
  have hacc := Store.acceptVertex_tables n.db aid (upsertVertex (n.db.vertex.lookup aid) row) seq
  refine runs_bind ((place_tables _ n₃).imp ?_)
  intro _ n₄ h₄
  rw [hm.origin] at h₄
  exact runs_pure ⟨aid, s, _, row, n₃.db, haid, hs, hrow, hm.tables.vertex.trans hacc.1,
    hm.tables.edge.trans hacc.2, h₄.congr_doc (placement_stampedDoc _ _ _ _)⟩

theorem RowWritten.of_sameTables {seq : Val} (h : RowWritten node doc origin seq b c)
    (hab : SameTables a b) :
    RowWritten node doc origin seq a c := by
  obtain ⟨aid, s, leaf, row, m, haid, hs, hrow, hmv, hme, hpl⟩ := h.row
  rw [hab.vertex] at hrow hmv
  exact ⟨aid, s, leaf, row, m, haid, hs, hrow, hmv, hme.trans hab.edge, hpl⟩

theorem RowWritten.then_sameTables {seq : Val} (h : RowWritten node doc origin seq a b)
    (hbc : SameTables b c) :
    RowWritten node doc origin seq a c := by
  obtain ⟨aid, s, leaf, row, m, haid, hs, hrow, hmv, hme, hpl⟩ := h.row
  refine ⟨aid, s, leaf, row, m, haid, hs, hrow, hmv, hme, ?_⟩
  rcases hpl with ⟨hsame, hno⟩ | ⟨cid, mid, seq, leaf, erow, hp, hc, her, hw⟩
  · exact .inl ⟨hsame.trans hbc, hno⟩
  · exact .inr ⟨cid, mid, seq, leaf, erow, hp, hc, her, hbc.vertex.trans hw.vertex,
      hbc.edge.trans hw.edge⟩

/-- What `_put_one` hands to `_write_row`: a declined document is not written. -/
def oneRows (db : Store) (stampRev : Bool) (onUnordered : OnUnordered) (doc : Doc) : List Doc :=
  if stampRev then [doc]
  else
    match verdictOf db doc, onUnordered with
    | .newer, _ => [doc]
    | .unordered, .takeRemote => [doc]
    | _, _ => []

theorem putWritten_tables (doc : Doc) (v : String × Val) (n : Node) :
    Runs (putWritten doc v) n (fun k n' => k = 1 ∧ RowWritten n.origin doc v.1 v.2 n.db n'.db)
      fun _ => True :=
  runs_bind ((writeRow_tables doc v.1 v.2 n).imp fun _ _ h => runs_pure ⟨rfl, h⟩)

theorem putOne_tables (onUnordered : OnUnordered) (doc : Doc) (n : Node) :
    Runs (putOne false onUnordered doc) n (fun k n' => k = 1 ∧
      ((oneRows n.db false onUnordered doc = [] ∧ SameTables n.db n'.db) ∨
      oneRows n.db false onUnordered doc = [doc] ∧ ∃ origin s,
        incomingVersion (doc.get "_origin") (doc.get "_seq") = some (origin, s) ∧
        RowWritten n.origin doc origin (doc.get "_seq") n.db n'.db)) fun _ => True := by
  unfold putOne
  refine runs_ite (fun _ => runs_throw trivial) fun _ => ?_
  refine runs_bind ((versionFor_consumed doc n).mono ?_ fun _ _ => trivial)
  rintro ⟨origin, seq⟩ n₁ ⟨rfl, s, hv, hseq⟩
  have hseq : seq = doc.get "_seq" := hseq
  subst hseq
  refine runs_bind ((quiet_observeIncoming origin (doc.get "_seq") n₁).imp ?_)
  rintro - n₂ ⟨h₂, ho⟩
  refine runs_bind ((lww_runs doc origin n₂ (incomingVersion_asInt hv).1).imp ?_)
  rintro verdict n₃ ⟨hverdict, hn⟩
  rw [hverdict, hn]
  have hver : verdictOf n₂.db doc = verdictOf n₁.db doc := by
    unfold verdictOf
    rw [h₂.vertex]
  have hwritten : Runs (putWritten doc (origin, doc.get "_seq")) n₂ (fun k n' => k = 1 ∧
      ∃ origin s, incomingVersion (doc.get "_origin") (doc.get "_seq") = some (origin, s) ∧
        RowWritten n₁.origin doc origin (doc.get "_seq") n₁.db n'.db) fun _ => True := by
    refine (putWritten_tables doc (origin, doc.get "_seq") n₂).imp ?_
    rintro k n' ⟨hk, h⟩
    rw [ho] at h
    exact ⟨hk, origin, s, hv, h.of_sameTables h₂⟩
  rw [hver]
  unfold oneRows
  cases hc : verdictOf n₁.db doc with
  | newer => exact hwritten.imp fun _ _ h => ⟨h.1, .inr ⟨rfl, h.2⟩⟩
  | older => exact runs_pure ⟨rfl, .inl ⟨rfl, h₂⟩⟩
  | same => exact runs_pure ⟨rfl, .inl ⟨rfl, h₂⟩⟩
  | unordered =>
    cases onUnordered with
    | keepLocal => exact runs_bind (runs_modify (runs_pure ⟨rfl, .inl ⟨rfl, h₂.trans ⟨rfl, rfl⟩⟩⟩))
    | takeRemote => exact hwritten.imp fun _ _ h => ⟨h.1, .inr ⟨rfl, h.2⟩⟩
    | error => exact runs_throw trivial

/-! ### Transactions -/

theorem write_runs {body : DbM α} {Q : Store → Prop} (hQ : ∀ a b, SameTables a b → Q a → Q b)
    (h : ∀ m : Node, m.db = n.db → Runs body m (fun _ m' => Q m'.db) fun _ => True) :
    Runs (write body) n (fun _ n' => Q n'.db) fun _ => True := by
  unfold Runs
  by_cases hn : n.inTxn = true
  · rw [write_join hn]
    exact h n rfl
  · rw [Bool.not_eq_true] at hn
    rw [write_own hn]
    have hb : Runs (do let a ← body; flush; pure a : DbM α) n.begin (fun _ n' => Q n'.db)
        fun _ => True := by
      refine runs_bind ((h n.begin rfl).imp ?_)
      intro a m hm
      refine runs_bind ((flush_runs m).mono ?_ fun _ _ => trivial)
      rintro - m' ⟨rfl, -⟩
      refine runs_pure (hQ _ _ ?_ hm)
      unfold Node.flushed
      split <;> exact ⟨rfl, rfl⟩
    cases hr : (do let a ← body; flush; pure a : DbM α) n.begin with
    | ok a n' =>
      have hq := hb.ok hr
      exact hq
    | error e n' => trivial

/-! ### Invariants of the tables -/

/-- Every row, every version, every eviction, every patch. -/
def Adm.any : Adm where
  consumedVertex _ _ _ := True
  authoredVertex _ _ := True
  consumedEdge _ _ _ := True
  authoredEdge _ _ _ := True
  observed _ _ := True
  evict := True
  patch := True

theorem edgeAdm_any (stampRev : Bool) (arg : EdgeArg) : EdgeAdm .any stampRev arg := by
  intro e _ h _
  exact ⟨fun _ _ _ _ _ _ _ => trivial, fun _ _ _ _ _ _ _ _ => trivial⟩

theorem docAdm_any (stampRev : Bool) (doc : Doc) : DocAdm .any stampRev doc := by
  intro aid _ origin seq s leaf prev row _
  exact ⟨fun _ _ => trivial, fun _ _ _ => trivial⟩

theorem Inner.sameEnv {A : Adm} {m : DbM α} (h : Inner A m n) :
    Runs m n (fun _ n' => SameEnv n n') (SameEnv n) :=
  Runs.mono h (fun _ _ hm => micros_sameEnv hm) fun _ he => he

theorem putOne_sameEnv (stampRev : Bool) (onUnordered : OnUnordered) (doc : Doc) (n : Node) :
    Runs (putOne stampRev onUnordered doc) n (fun _ n' => SameEnv n n') (SameEnv n) :=
  (inner_putOne (A := .any) (fun _ _ => edgeAdm_any _ _)
    ⟨docAdm_any _ _, fun _ _ _ _ => trivial⟩ onUnordered n).sameEnv

theorem addOne_sameEnv (arg : EdgeArg) (stampRev : Bool) (n : Node) :
    Runs (addOne n.graphLeaves arg stampRev) n (fun _ n' => SameEnv n n') (SameEnv n) :=
  (inner_addOne (A := .any) (edgeAdm_any _ _) (fun _ _ _ _ _ _ => trivial) (.inr (.inl rfl))).sameEnv

/-- What `put_artifact` does with a consumed document, in its transaction. -/
def putConsumed (doc : Doc) : DbM Doc := do
  let v ← versionFor doc false
  observeConsumed false v
  writeRow doc v.1 v.2

theorem putArtifact_consumed (doc : Doc) (newVersion : Bool) :
    putArtifact doc false newVersion =
      if !(doc.get "id").truthy then throw (.valueError "put_artifact: doc has no 'id'")
      else write (putConsumed doc) := rfl

theorem putConsumed_sameEnv (doc : Doc) (n : Node) :
    Runs (putConsumed doc) n (fun _ n' => SameEnv n n') (SameEnv n) := by
  refine runs_bind ((versionFor_consumed doc n).imp ?_)
  rintro ⟨origin, seq⟩ n' ⟨rfl, s, hv, rfl⟩
  exact (inner_observeIncoming (A := .any) (fun _ _ _ => trivial) hv
    (inner_consume (fun _ _ => edgeAdm_any _ _) (docAdm_any _ _) hv (observe_lookup _ _ _))).sameEnv

theorem putConsumed_tables (doc : Doc) (n : Node) :
    Runs (putConsumed doc) n (fun _ n' => ∃ origin s,
      incomingVersion (doc.get "_origin") (doc.get "_seq") = some (origin, s) ∧
      RowWritten n.origin doc origin (doc.get "_seq") n.db n'.db) fun _ => True := by
  refine runs_bind ((versionFor_consumed doc n).mono ?_ fun _ _ => trivial)
  rintro ⟨origin, seq⟩ n₁ ⟨rfl, s, hv, hseq⟩
  have hseq : seq = doc.get "_seq" := hseq
  subst hseq
  refine runs_bind ((quiet_observeConsumed false (origin, doc.get "_seq") n₁).imp ?_)
  rintro - n₂ ⟨h₂, ho⟩
  refine (writeRow_tables doc origin (doc.get "_seq") n₂).imp ?_
  intro _ n₃ h₃
  rw [ho] at h₃
  exact ⟨origin, s, hv, h₃.of_sameTables h₂⟩

section Invariants

variable {α β : Type} {n₀ : Node} {J : Store → Prop}

/-- The node is the one of `n₀`, and its tables satisfy the invariant. -/
structure At (n₀ : Node) (J : Store → Prop) (n : Node) : Prop where
  origin : n.origin = n₀.origin
  graphLeaves : n.graphLeaves = n₀.graphLeaves
  holds : J n.db

def OfTables (J : Store → Prop) : Prop := ∀ a b, SameTables a b → J a → J b

theorem At.of_sameEnv {n' : Node} {J' : Store → Prop} (h : At n₀ J n) (he : SameEnv n n') (hJ : J' n'.db) :
    At n₀ J' n' :=
  ⟨he.origin.trans h.origin, he.graphLeaves.trans h.graphLeaves, hJ⟩

/-- Inside a transaction: kept if the statement returns; an exception will be rolled back. -/
def Inside (n₀ : Node) (J : Store → Prop) (m : DbM α) : Prop :=
  ∀ n, At n₀ J n → Runs m n (fun _ => At n₀ J) (At n₀ fun _ => True)

/-- Outside: kept however the statement ends. -/
def Top (n₀ : Node) (J : Store → Prop) (m : DbM α) : Prop :=
  ∀ n, At n₀ J n → n.inTxn = false →
    Runs m n (fun _ n' => At n₀ J n' ∧ n'.inTxn = false) fun n' => At n₀ J n' ∧ n'.inTxn = false

theorem inside_of_tables {m : DbM α}
    (henv : ∀ n, At n₀ J n → Runs m n (fun _ n' => SameEnv n n') (SameEnv n))
    (h : ∀ n, At n₀ J n → Runs m n (fun _ n' => J n'.db) fun _ => True) : Inside n₀ J m := by
  intro n hn
  refine ((henv n hn).and (h n hn)).mono ?_ ?_
  · rintro a n' ⟨he, hJ⟩
    exact hn.of_sameEnv he hJ
  · rintro n' ⟨he, -⟩
    exact hn.of_sameEnv he trivial

theorem inside_pure (a : α) : Inside n₀ J (pure a : DbM α) := fun _ hn => runs_pure hn

theorem inside_bind {m : DbM α} {f : α → DbM β} (h : Inside n₀ J m)
    (hf : ∀ a, Inside n₀ J (f a)) : Inside n₀ J (m >>= f) := fun n hn =>
  runs_bind ((h n hn).imp fun a n' hn' => hf a n' hn')

theorem inside_savepoint {m : DbM ℕ} (h : Inside n₀ J m) : Inside n₀ J (savepoint m) := by
  intro n hn
  refine runs_bind (runs_attempt ((h n hn).mono (fun _ _ h' => runs_pure h') ?_))
  intro n' hn'
  exact runs_pure ⟨hn'.origin, hn'.graphLeaves, hn.holds⟩

theorem inside_foldlM {f : β → γ → DbM β} {xs : List γ} {b : β} (h : ∀ x ∈ xs, ∀ b, Inside n₀ J (f b x)) :
    Inside n₀ J (xs.foldlM f b) := fun n hn =>
  runs_foldlM (At n₀ J) xs b n hn fun x hx b n' hn' => h x hx b n' hn'

theorem top_pure (a : α) : Top n₀ J (pure a : DbM α) := fun _ hn hi => runs_pure ⟨hn, hi⟩

theorem top_throw (e : PyErr) : Top n₀ J (throw e : DbM α) := fun _ hn hi => runs_throw ⟨hn, hi⟩

theorem top_bind {m : DbM α} {f : α → DbM β} (h : Top n₀ J m) (hf : ∀ a, Top n₀ J (f a)) :
    Top n₀ J (m >>= f) := fun n hn hi =>
  runs_bind ((h n hn hi).imp fun a n' hn' => hf a n' hn'.1 hn'.2)

theorem top_ite {c : Prop} [Decidable c] {m₁ m₂ : DbM α} (h₁ : c → Top n₀ J m₁)
    (h₂ : ¬c → Top n₀ J m₂) : Top n₀ J (if c then m₁ else m₂) := by
  split_ifs with hc
  · exact h₁ hc
  · exact h₂ hc

theorem write_at {body : DbM α} {Q : α → Store → Prop} (hQ : ∀ a, OfTables (Q a)) (hn : At n₀ J n)
    (hi : n.inTxn = false)
    (h : ∀ m : Node, m.db = n.db → At n₀ J m →
      Runs body m (fun a => At n₀ (Q a)) (At n₀ fun _ => True)) :
    Runs (write body) n (fun a n' => At n₀ (Q a) n' ∧ n'.inTxn = false)
      fun n' => At n₀ J n' ∧ n'.inTxn = false := by
  have hb : Runs (do let a ← body; flush; pure a : DbM α) n.begin (fun a => At n₀ (Q a))
      (At n₀ fun _ => True) := by
    refine runs_bind ((h n.begin rfl ⟨hn.origin, hn.graphLeaves, hn.holds⟩).imp ?_)
    intro a m hm
    refine runs_bind ((flush_runs m).mono ?_ fun m' he => hm.of_sameEnv he trivial)
    rintro - m' ⟨rfl, -⟩
    refine runs_pure ?_
    unfold Node.flushed
    split
    · exact ⟨hm.origin, hm.graphLeaves, hQ a m.db _ ⟨rfl, rfl⟩ hm.holds⟩
    · exact hm
  unfold Runs
  rw [write_own hi]
  cases hr : (do let a ← body; flush; pure a : DbM α) n.begin with
  | ok a n' =>
    have hq := hb.ok hr
    exact ⟨⟨hq.origin, hq.graphLeaves, hq.holds⟩, rfl⟩
  | error e n' =>
    have hq := hb.error hr
    exact ⟨⟨hq.origin, hq.graphLeaves, hn.holds⟩, rfl⟩

theorem top_write {body : DbM α} (hJ : OfTables J) (h : Inside n₀ J body) : Top n₀ J (write body) :=
  fun _ hn hi => write_at (fun _ => hJ) hn hi fun m _ hm => h m hm

theorem top_foldlM {f : β → γ → DbM β} :
    ∀ {xs : List γ} {b : β}, (∀ x ∈ xs, ∀ b, Top n₀ J (f b x)) → Top n₀ J (xs.foldlM f b)
  | [], b, _ => top_pure b
  | x :: xs, b, h => by
    rw [List.foldlM_cons]
    exact top_bind (h x (by simp) b) fun b' => top_foldlM fun y hy => h y (by simp [hy])

theorem top_bulk {batch : ℕ} {one : γ → DbM ℕ} {xs : List γ} (hJ : OfTables J)
    (h : ∀ x ∈ xs, Inside n₀ J (one x)) : Top n₀ J (bulk batch one xs) := by
  refine top_foldlM ?_
  intro chunk hchunk handled
  refine top_bind (top_write hJ (inside_foldlM ?_)) fun _ => top_pure _
  intro x hx k
  have hx' : x ∈ xs := by
    rcases mem_chunked hchunk x hx with h' | h'
    · simp at h'
    · exact h'
  exact inside_bind (inside_savepoint (h x hx')) fun _ => inside_pure _

end Invariants

end Mantle
