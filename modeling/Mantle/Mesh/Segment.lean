import Mantle.Db.Bulk
import Mantle.Db.Place
import Mantle.Mesh.Apply

/-!
# Mantle.Mesh.Segment — what an apply that returned did to the tables

When the two applies return, the tables went through the record of declinations, the documents that are not declined,
the queue of consumed content and the edges, in this order.
-/

namespace Mantle

open Tx

variable {batch items : List Doc} {c db : Store} {n n' : Node} {newly : Doc} {origin : String}
  {seq : Val}

variable {a b : Store} {d : Doc} {docs : List Doc} {float : String → Flt} {id me : String}

/-- An operational row may have been written. -/
def OpApplied (me id : String) (db db' : Store) : Prop :=
  SameTables db db' ∨ ∃ d origin seq, OpShaped id d ∧ RowWritten me d origin seq db db'

/-- An operational row was written, as this document. -/
def OpPut (me : String) (d : Doc) (db db' : Store) : Prop :=
  ∃ origin seq, RowWritten me (opDoc d) origin seq db db'

/-- The record of declinations after an apply that found these. -/
def DeclinedBy (me : String) (newly : Doc) (db db' : Store) : Prop :=
  (newly.isEmpty = true ∧ SameTables db db') ∨
    (newly.isEmpty = false ∧ OpPut me (declinedDoc db newly) db db')

theorem RowWritten.vertex (hw : RowWritten me d origin seq a b) :
    ∃ id row s, d.get "id" = .str id ∧ seq.asInt = some s ∧ row.origin = origin ∧ row.seq = s ∧
      (∀ k ∉ stampKeys, row.doc.val.get k = (d.get k).norm) ∧ b.vertex = a.vertex.insert id row := by
  obtain ⟨aid, s, leaf, row, m, haid, hs, hrow, hmv, -, hpl⟩ := hw.row
  obtain ⟨hro, hrs, -, hrd⟩ := vertexRow_ok hrow
  obtain ⟨huo, hus, -, hud⟩ := upsertVertex_fields (a.vertex.lookup aid) row
  refine ⟨aid, _, s, docId_ok haid, hs, huo.trans hro, hus.trans hrs, ?_,
    (PlaceWritten.edges hpl).1.trans hmv⟩
  intro k hk
  rw [hud, hrd, Doc.get_norm, stampedDoc_get hk]

theorem EdgeHandled.vertex {arg : EdgeArg} (h : EdgeHandled arg a b) : b.vertex = a.vertex := by
  obtain ⟨e, origin, seq, -, -, ⟨-, hs⟩ | ⟨-, leaf, row, -, hw⟩⟩ := h
  · exact hs.vertex
  · exact hw.vertex

/-- What an apply went through. -/
structure Applied (float : String → Flt) (items edges : List Doc) (n : Node) (docs : List Doc)
    (stamped : List EdgeArg) (a b c : Store) (n' : Node) : Prop where
  formed : ((keptItems items).filter fun d => !isUnordered n.db d).mapM (storedForm float) = .ok docs
  linked : (edgeItems edges).mapM (stampEdge n.origin) = .ok stamped
  recorded : DeclinedBy n.origin (newlyDeclined n.db (keptItems items)) n.db a
  rows : Chain (DocHandled n.origin) docs a b
  queued : OpApplied n.origin consumedId b c
  noneQueued : consumedIds n.origin docs = [] → SameTables b c
  links : Chain EdgeHandled stamped c n'.db

theorem DeclinedBy.opApplied {db' : Store} (h : DeclinedBy me newly db db') :
    OpApplied me declinedId db db' := by
  rcases h with ⟨-, hs⟩ | ⟨-, origin, seq, hw⟩
  · exact .inl hs
  · exact .inr ⟨_, origin, seq, (opShaped_declinedDoc db newly).pinned, hw⟩

theorem Applied.declined {edges : List Doc} {stamped : List EdgeArg}
    (h : Applied float items edges n docs stamped a b c n') :
    OpApplied n.origin declinedId n.db a := h.recorded.opApplied

/-! ### The rows beside the one written -/

theorem DocHandled.lookup_of_ne (h : DocHandled me d a b) (hid : d.get "id" ≠ .str id) :
    b.vertex.lookup id = a.vertex.lookup id := by
  rcases h with ⟨-, -, hs⟩ | ⟨-, origin, s, -, hw⟩
  · rw [hs.vertex]
  · obtain ⟨aid, row, -, haid, -, -, -, -, hv⟩ := hw.vertex
    rw [hv, Table.lookup_insert_of, if_neg]
    rintro rfl
    exact hid haid

theorem Chain.lookup_of_ne (h : Chain (DocHandled me) docs a b) (hid : ∀ d ∈ docs, d.get "id" ≠ .str id) :
    b.vertex.lookup id = a.vertex.lookup id := by
  refine h.keeps (J := fun s => s.vertex.lookup id = a.vertex.lookup id) ?_ ?_ rfl
  · intro s t hs hl
    rw [hs.vertex]
    exact hl
  · intro d hd s t hw hl
    rw [hw.lookup_of_ne (hid d hd), hl]

theorem OpApplied.lookup_of_ne {op : String} (h : OpApplied me op a b) (hne : id ≠ op) :
    b.vertex.lookup id = a.vertex.lookup id := by
  rcases h with hs | ⟨d, origin, seq, hd, hw⟩
  · rw [hs.vertex]
  · obtain ⟨aid, row, -, haid, -, -, -, -, hv⟩ := hw.vertex
    cases hd.id.symm.trans haid
    rw [hv, Table.lookup_insert_of, if_neg hne]

section Apply

variable {n₀ n : Node} {float : String → Flt} {items edges : List Doc}

theorem OpPut.then_sameTables (h : OpPut me d a b) (hs : SameTables b c) : OpPut me d a c := by
  obtain ⟨origin, seq, hw⟩ := h
  exact ⟨origin, seq, hw.then_sameTables hs⟩

theorem putOp_put (hn : At n₀ (fun _ => True) n) (hi : n.inTxn = false) :
    Runs (putOp d) n (fun _ n' => At n₀ (OpPut n₀.origin d n.db) n' ∧ n'.inTxn = false)
      fun n' => At n₀ (SameTables n.db) n' ∧ n'.inTxn = false := by
  have hn' : At n₀ (SameTables n.db) n := ⟨hn.origin, hn.graphLeaves, SameTables.refl _⟩
  unfold putOp
  refine runs_ite (fun _ => runs_throw ⟨hn', hi⟩) fun _ => runs_bind ?_
  rw [putArtifact_consumed]
  refine runs_ite (fun _ => runs_throw ⟨hn', hi⟩) fun _ => ?_
  refine (write_at (Q := fun _ => OpPut n₀.origin d n.db) (fun _ _ _ hs h => h.then_sameTables hs)
    hn' hi ?_).imp fun _ _ h => runs_pure h
  intro m hdb hm
  refine ((putConsumed_sameEnv (opDoc d) m).and (putConsumed_tables (opDoc d) m)).mono ?_ ?_
  · rintro - m' ⟨he, origin, s, -, hw⟩
    rw [hm.origin, hdb] at hw
    exact hm.of_sameEnv he ⟨_, _, hw⟩
  · exact fun m' h => hm.of_sameEnv h.1 trivial

theorem putOp_applied (hd : OpShaped id d) (hn : At n₀ (fun _ => True) n) (hi : n.inTxn = false) :
    Runs (putOp d) n (fun _ n' => At n₀ (OpApplied n₀.origin id n.db) n' ∧ n'.inTxn = false)
      fun n' => n'.inTxn = false := by
  refine (putOp_put hn hi).mono ?_ fun _ h => h.2
  rintro - n' ⟨hn', hi'⟩
  obtain ⟨origin, seq, hw⟩ := hn'.holds
  exact ⟨⟨hn'.origin, hn'.graphLeaves, .inr ⟨_, _, _, hd.pinned, hw⟩⟩, hi'⟩

theorem recordDeclined_applied (hn : At n₀ (fun _ => True) n) (hi : n.inTxn = false) :
    Runs (recordDeclined n.db newly) n
      (fun _ n' => At n₀ (DeclinedBy n₀.origin newly n.db) n' ∧ n'.inTxn = false)
      fun n' => At n₀ (SameTables n.db) n' ∧ n'.inTxn = false := by
  refine runs_ite (fun he => runs_pure ?_) fun hne => ?_
  · exact ⟨⟨hn.origin, hn.graphLeaves, .inl ⟨he, SameTables.refl _⟩⟩, hi⟩
  · refine (putOp_put hn hi).imp ?_
    rintro - n' ⟨hn', hi'⟩
    exact ⟨⟨hn'.origin, hn'.graphLeaves, .inr ⟨by simpa using hne, hn'.holds⟩⟩, hi'⟩

theorem enqueueConsumed_applied (docs : List Doc) (hn : At n₀ (fun _ => True) n)
    (hi : n.inTxn = false) :
    Runs (enqueueConsumed docs) n (fun _ n' => At n₀ (fun db' =>
        OpApplied n₀.origin consumedId n.db db' ∧
          (consumedIds n₀.origin docs = [] → SameTables n.db db')) n' ∧
        n'.inTxn = false) fun n' => n'.inTxn = false := by
  refine runs_bind (runs_get (runs_ite (fun _ => runs_pure ?_) fun hne => ?_))
  · exact ⟨⟨hn.origin, hn.graphLeaves, .inl (SameTables.refl _), fun _ => SameTables.refl _⟩, hi⟩
  · refine (putOp_applied (opShaped_consumedDoc n.db _) hn hi).imp ?_
    rintro - n' ⟨hn', hi'⟩
    refine ⟨⟨hn'.origin, hn'.graphLeaves, hn'.holds, fun he => absurd ?_ hne⟩, hi'⟩
    rw [hn.origin, he]
    rfl

theorem writeBatch_applied (refused declined : ℕ) (hn : At n₀ (fun _ => True) n) (hi : n.inTxn = false) :
    Runs (writeBatch float batch refused declined) n (fun _ n' => At n₀ (fun db' =>
        ∃ docs b, batch.mapM (storedForm float) = .ok docs ∧
          Chain (DocHandled n₀.origin) docs n.db b ∧ OpApplied n₀.origin consumedId b db' ∧
          (consumedIds n₀.origin docs = [] → SameTables b db')) n' ∧ n'.inTxn = false)
      fun n' => n'.inTxn = false := by
  refine runs_bind (runs_ofExcept ?_ hi)
  intro docs hdocs
  refine runs_bind ((bulk_handled 500 (fun d _ => putOne_handlesOne n₀ d) hn hi).imp ?_)
  rintro written n₁ ⟨hn₁, hi₁⟩
  refine runs_ite (fun _ => runs_throw hi₁) fun hall => ?_
  have hchain := hn₁.holds.2 (le_antisymm hn₁.holds.1 (not_lt.mp hall))
  have hn₁' : At n₀ (fun _ => True) n₁ := ⟨hn₁.origin, hn₁.graphLeaves, trivial⟩
  refine runs_bind ((enqueueConsumed_applied docs hn₁' hi₁).imp ?_)
  rintro - n₂ ⟨hn₂, hi₂⟩
  exact runs_pure ⟨⟨hn₂.origin, hn₂.graphLeaves, docs, n₁.db, hdocs, hchain, hn₂.holds⟩, hi₂⟩

theorem applyArtifacts_applied (float : String → Flt) (items : List Doc) (hi : n.inTxn = false) :
    Runs (applyArtifacts float items) n (fun _ n' => At n (fun db' => ∃ docs a b,
        ((keptItems items).filter fun d => !isUnordered n.db d).mapM (storedForm float) = .ok docs ∧
        DeclinedBy n.origin (newlyDeclined n.db (keptItems items)) n.db a ∧
        Chain (DocHandled n.origin) docs a b ∧ OpApplied n.origin consumedId b db' ∧
        (consumedIds n.origin docs = [] → SameTables b db')) n' ∧ n'.inTxn = false)
      fun n' => n'.inTxn = false := by
  have hn : At n (fun _ => True) n := ⟨rfl, rfl, trivial⟩
  have hsame := SameTables.refl n.db
  unfold applyArtifacts
  refine runs_ite (fun hnil => runs_pure ?_) fun _ => ?_
  · rw [List.isEmpty_iff] at hnil
    refine ⟨⟨rfl, rfl, [], n.db, n.db, ?_, .inl ⟨?_, hsame⟩, hsame, .inl hsame, fun _ => hsame⟩, hi⟩
    · rw [hnil]
      rfl
    · rw [hnil]
      rfl
  · unfold splitUnordered
    refine runs_bind (runs_bind (runs_get (runs_bind ((recordDeclined_applied hn hi).mono ?_
      fun _ h => h.2))))
    rintro - n₁ ⟨hn₁, hi₁⟩
    refine runs_pure (runs_ite (fun hnil => runs_pure ?_) fun _ => ?_)
    · rw [List.isEmpty_iff] at hnil
      dsimp only at hnil
      refine ⟨⟨hn₁.origin, hn₁.graphLeaves, [], n₁.db, n₁.db, ?_, hn₁.holds, SameTables.refl _,
        .inl (SameTables.refl _), fun _ => SameTables.refl _⟩, hi₁⟩
      rw [hnil]
      rfl
    · have hn₁' : At n (fun _ => True) n₁ := ⟨hn₁.origin, hn₁.graphLeaves, trivial⟩
      refine (writeBatch_applied _ _ hn₁' hi₁).imp ?_
      rintro - n₂ ⟨hn₂, hi₂⟩
      obtain ⟨docs, b, hdocs, hrest⟩ := hn₂.holds
      exact ⟨⟨hn₂.origin, hn₂.graphLeaves, docs, n₁.db, b, hdocs, hn₁.holds, hrest⟩, hi₂⟩

theorem applyEdges_applied (edges : List Doc) (hn : At n₀ (fun _ => True) n) (hi : n.inTxn = false) :
    Runs (applyEdges edges) n (fun _ n' => At n₀ (fun db' => ∃ stamped,
        (edgeItems edges).mapM (stampEdge n₀.origin) = .ok stamped ∧
        Chain EdgeHandled stamped n.db db') n' ∧ n'.inTxn = false) fun n' => n'.inTxn = false := by
  unfold applyEdges
  refine runs_ite (fun hnil => runs_pure ?_) fun _ => ?_
  · rw [List.isEmpty_iff] at hnil
    refine ⟨⟨hn.origin, hn.graphLeaves, [], ?_, SameTables.refl _⟩, hi⟩
    rw [hnil]
    rfl
  · refine runs_bind (runs_get (runs_bind (runs_ofExcept ?_ hi)))
    intro stamped hstamped
    rw [hn.origin] at hstamped
    refine runs_bind (runs_bind (runs_get ?_))
    rw [hn.graphLeaves]
    refine (bulk_handled 500 (fun e _ => addOne_handlesOne n₀ e) hn hi).imp ?_
    rintro handled n₁ ⟨hn₁, hi₁⟩
    refine runs_ite (fun _ => runs_throw hi₁) fun hall => runs_pure ?_
    exact ⟨⟨hn₁.origin, hn₁.graphLeaves, stamped, hstamped,
      hn₁.holds.2 (le_antisymm hn₁.holds.1 (not_lt.mp hall))⟩, hi₁⟩

theorem applySegment_applied (hi : n.inTxn = false) (h : applySegment float items edges n = .ok ⟨⟩ n') :
    (∃ docs stamped a b c, Applied float items edges n docs stamped a b c n') ∧ n'.inTxn = false ∧
      n'.origin = n.origin := by
  have hruns : Runs (applySegment float items edges) n (fun _ n' =>
      (∃ docs stamped a b c, Applied float items edges n docs stamped a b c n') ∧ n'.inTxn = false ∧
        n'.origin = n.origin) fun _ => True := by
    refine runs_bind ((applyArtifacts_applied float items hi).mono ?_ fun _ _ => trivial)
    rintro - n₁ ⟨hn₁, hi₁⟩
    obtain ⟨docs, a, b, hdocs, hop, hrows, hqueue, hnone⟩ := hn₁.holds
    have hn : At n (fun _ => True) n₁ := ⟨hn₁.origin, hn₁.graphLeaves, trivial⟩
    refine runs_bind ((applyEdges_applied edges hn hi₁).mono ?_ fun _ _ => trivial)
    rintro - n₂ ⟨hn₂, hi₂⟩
    obtain ⟨stamped, hstamped, hlinks⟩ := hn₂.holds
    exact runs_pure ⟨⟨docs, stamped, a, b, n₁.db, hdocs, hstamped, hop, hrows, hqueue, hnone, hlinks⟩,
      hi₂, hn₂.origin⟩
  exact hruns.ok h

end Apply

/-! ### However it ends -/

/-- An invariant of the tables that every write of an apply keeps, on a node with this name. -/
structure ApplyRules (J : Store → Prop) (me : String) (float : String → Flt) (items : List Doc) :
    Prop where
  tables : OfTables J
  docs : ∀ d ∈ keptItems items, ∀ d', storedForm float d = .ok d' →
    ∀ a b, DocHandled me d' a b → J a → J b
  queue : ∀ ids a b, OpPut me (consumedDoc a ids) a b → J a → J b
  links : ∀ arg a b, EdgeHandled arg a b → J a → J b

section Keep

variable {J : Store → Prop} {n₀ n : Node} {float : String → Flt} {items : List Doc}

theorem top_putMany (hJ : ApplyRules J n₀.origin float items) (hbatch : ∀ d ∈ batch, d ∈ keptItems items)
    (hdocs : batch.mapM (storedForm float) = .ok docs) :
    Top n₀ J (putMany docs 500 false .keepLocal) := by
  refine top_bulk hJ.tables ?_
  intro d' hd' n hn
  obtain ⟨d, hd, hform⟩ := (mapM_ok hdocs d').mp hd'
  refine (putOne_handlesOne n₀ d' n ⟨hn.origin, hn.graphLeaves, trivial⟩).imp ?_
  rintro - n' ⟨-, hn'⟩
  exact ⟨hn'.origin, hn'.graphLeaves, hJ.docs d (hbatch d hd) d' hform n.db n'.db hn'.holds hn.holds⟩

theorem top_enqueueConsumed (hJ : ApplyRules J n₀.origin float items) (docs : List Doc) :
    Top n₀ J (enqueueConsumed docs) := by
  intro n hn hi
  refine runs_bind (runs_get (runs_ite (fun _ => runs_pure ⟨hn, hi⟩) fun _ => ?_))
  refine (putOp_put ⟨hn.origin, hn.graphLeaves, trivial⟩ hi).mono ?_ ?_
  · rintro - n' ⟨hn', hi'⟩
    exact ⟨⟨hn'.origin, hn'.graphLeaves, hJ.queue _ n.db n'.db hn'.holds hn.holds⟩, hi'⟩
  · rintro n' ⟨hn', hi'⟩
    exact ⟨⟨hn'.origin, hn'.graphLeaves, hJ.tables _ _ hn'.holds hn.holds⟩, hi'⟩

theorem top_applyEdges_rules (hJ : ApplyRules J n₀.origin float items) (edges : List Doc) :
    Top n₀ J (applyEdges edges) := by
  refine top_ite (fun _ => top_pure _) fun _ => ?_
  intro n hn hi
  refine runs_bind (runs_get (runs_bind (runs_ofExcept ?_ ⟨hn, hi⟩)))
  intro stamped _
  have hadd : Top n₀ J (addEdges stamped 500 false) := by
    intro m hm hmi
    refine runs_bind (runs_get ?_)
    rw [hm.graphLeaves]
    refine top_bulk hJ.tables ?_ m hm hmi
    intro arg _ m' hm'
    refine (addOne_handlesOne n₀ arg m' ⟨hm'.origin, hm'.graphLeaves, trivial⟩).imp ?_
    rintro - m'' ⟨-, h⟩
    exact ⟨h.origin, h.graphLeaves, hJ.links arg m'.db m''.db h.holds hm'.holds⟩
  exact (top_bind hadd fun _ => top_ite (fun _ => top_throw _) fun _ => top_pure _) n hn hi

/-- **An apply, however it ends.** -/
theorem applied_keeps (hJ : ApplyRules J n.origin float items)
    (hrecord : ∀ b, DeclinedBy n.origin (newlyDeclined n.db (keptItems items)) n.db b → J n.db → J b)
    (edges : List Doc) (hn : J n.db) (hi : n.inTxn = false) :
    At n J (n.applied float items edges) ∧ (n.applied float items edges).inTxn = false := by
  have hat : At n J n := ⟨rfl, rfl, hn⟩
  have hsplit : Runs (splitUnordered (keptItems items)) n
      (fun split n' => (At n J n' ∧ n'.inTxn = false) ∧ ∀ d ∈ split.1, d ∈ keptItems items)
      fun n' => At n J n' ∧ n'.inTxn = false := by
    refine runs_bind (runs_get (runs_bind ((recordDeclined_applied ⟨rfl, rfl, trivial⟩ hi).mono ?_ ?_)))
    · rintro - n' ⟨hn', hi'⟩
      exact runs_pure ⟨⟨⟨hn'.origin, hn'.graphLeaves, hrecord _ hn'.holds hn⟩, hi'⟩,
        fun d hd => List.mem_of_mem_filter hd⟩
    · rintro n' ⟨hn', hi'⟩
      exact ⟨⟨hn'.origin, hn'.graphLeaves, hJ.tables _ _ hn'.holds hn⟩, hi'⟩
  have hbatch : ∀ (batch : List Doc) (refused declined : ℕ), (∀ d ∈ batch, d ∈ keptItems items) →
      Top n J (writeBatch float batch refused declined) := by
    intro batch refused declined hmem m hm hmi
    refine runs_bind (runs_ofExcept ?_ ⟨hm, hmi⟩)
    intro docs hdocs
    exact (top_bind (top_putMany hJ hmem hdocs) fun written => top_ite (fun _ => top_throw _) fun _ =>
      top_bind (top_enqueueConsumed hJ docs) fun _ => top_pure _) m hm hmi
  have hart : Runs (applyArtifacts float items) n (fun _ n' => At n J n' ∧ n'.inTxn = false)
      fun n' => At n J n' ∧ n'.inTxn = false := by
    refine runs_ite (fun _ => runs_pure ⟨hat, hi⟩) fun _ => runs_bind (hsplit.imp ?_)
    rintro split n' ⟨⟨hn', hi'⟩, hmem⟩
    exact top_ite (fun _ => top_pure _) (fun _ => hbatch _ _ _ hmem) n' hn' hi'
  have hseg : Runs (applySegment float items edges) n (fun _ n' => At n J n' ∧ n'.inTxn = false)
      fun n' => At n J n' ∧ n'.inTxn = false := by
    refine runs_bind (hart.imp ?_)
    rintro - n' ⟨hn', hi'⟩
    exact top_bind (top_applyEdges_rules hJ edges) (fun _ => top_pure _) n' hn' hi'
  unfold Node.applied
  unfold Runs at hseg
  cases hr : applySegment float items edges n with
  | ok u n' =>
    rw [hr] at hseg
    exact hseg
  | error e n' =>
    rw [hr] at hseg
    exact hseg

end Keep

/-! ### Rows only get newer -/

def opIds : List String := [declinedId, consumedId]

/-- The segment may bring a row under this id. -/
def Brought (items : List Doc) (x : String) : Prop :=
  x ∈ opIds ∨ ∃ d ∈ keptItems items, d.get "id" = .str x

/-- The vertices after part of a segment: a row gives way to a newer version of its own origin only. -/
structure Aged (db₀ : Store) (items : List Doc) (db : Store) : Prop where
  old : ∀ id r₀, id ∉ opIds → db₀.vertex.lookup id = some r₀ →
    ∃ r, db.vertex.lookup id = some r ∧ r.origin = r₀.origin ∧ r₀.seq ≤ r.seq
  has : ∀ x, db.Has x → db₀.Has x ∨ Brought items x

theorem isUnordered_of_newer (hid : d.get "id" = .str id) (hnew : verdictOf db d = .newer) :
    isUnordered db d = false := by
  rw [verdictOf_text hid] at hnew
  unfold isUnordered
  rw [hid]
  split
  · change Option.any _ (db.vertex.lookup id) = false
    cases hr : db.vertex.lookup id with
    | none => rfl
    | some r =>
      rw [hr] at hnew
      dsimp only at hnew
      simp [hnew]
  · rfl

section Aged

variable {db₀ db db' : Store} {items : List Doc}

theorem aged_refl (db₀ : Store) (items : List Doc) : Aged db₀ items db₀ where
  old _ r₀ _ hr₀ := ⟨r₀, hr₀, rfl, le_refl _⟩
  has _ hx := .inl hx

theorem Aged.of_vertex (h : Aged db₀ items a) (hv : b.vertex = a.vertex) : Aged db₀ items b := by
  refine ⟨?_, ?_⟩
  · rw [hv]
    exact h.old
  · intro x hx
    unfold Store.Has at hx
    rw [hv] at hx
    exact h.has x hx

theorem aged_ofTables : OfTables (Aged db₀ items) := fun _ _ hs h => h.of_vertex hs.vertex

theorem Aged.newer (h : Aged db₀ items db) (hop : id ∉ opIds) (hid : d.get "id" = .str id)
    (hnew : verdictOf db d = .newer) :
    verdictOf db₀ d = .newer ∧ ∀ r₀, db₀.vertex.lookup id = some r₀ →
      d.get "_origin" = .str r₀.origin ∧ ∃ a, (d.get "_seq").asInt = some a ∧ r₀.seq ≤ a := by
  cases h₀ : db₀.vertex.lookup id with
  | none =>
    refine ⟨by rw [verdictOf_text hid, h₀], ?_⟩
    intro r₀ hr₀
    cases hr₀
  | some r₀ =>
    obtain ⟨r, hr, ho, hs⟩ := h.old id r₀ hop h₀
    rw [verdictOf_text hid, hr] at hnew
    obtain ⟨hor, a, ha, hlt⟩ := compareVersion_newer_iff.mp hnew
    refine ⟨?_, ?_⟩
    · rw [verdictOf_text hid, h₀]
      exact compareVersion_newer_iff.mpr ⟨ho ▸ hor, a, ha, lt_of_le_of_lt hs hlt⟩
    · intro r₀' hr₀'
      cases hr₀'
      exact ⟨ho ▸ eqStr_iff.mp hor, a, ha, le_of_lt (lt_of_le_of_lt hs hlt)⟩

theorem Aged.row (h : Aged db₀ items db) {doc : Doc} (hw : RowWritten me doc origin seq db db')
    (hid : doc.get "id" = .str id) (hb : Brought items id)
    (hver : id ∉ opIds → ∀ r, db.vertex.lookup id = some r →
      origin = r.origin ∧ ∃ a, seq.asInt = some a ∧ r.seq ≤ a) : Aged db₀ items db' := by
  obtain ⟨aid, s, leaf, row, m, haid, hs, hrow, hmv, -, hpl⟩ := hw.row
  obtain rfl : aid = id := Val.str.inj ((docId_ok haid).symm.trans hid)
  obtain ⟨hro, hrs, -, -⟩ := vertexRow_ok hrow
  obtain ⟨huo, hus, -, -⟩ := upsertVertex_fields (db.vertex.lookup aid) row
  have hv : db'.vertex = db.vertex.insert aid (upsertVertex (db.vertex.lookup aid) row) :=
    (PlaceWritten.edges hpl).1.trans hmv
  refine ⟨?_, ?_⟩
  · intro x r₀ hop hr₀
    obtain ⟨r, hr, ho, hle⟩ := h.old x r₀ hop hr₀
    rw [hv, Table.lookup_insert_of]
    split_ifs with hx
    · subst hx
      obtain ⟨heq, a, ha, hle'⟩ := hver hop r hr
      rw [ha] at hs
      cases hs
      exact ⟨_, rfl, by rw [huo, hro, heq, ho], by rw [hus, hrs]; exact le_trans hle hle'⟩
    · exact ⟨r, hr, ho, hle⟩
  · intro x hx
    unfold Store.Has at hx
    rw [hv, Table.lookup_insert_of] at hx
    split_ifs at hx with hxa
    · exact .inr (hxa ▸ hb)
    · exact h.has x hx

theorem Aged.opApplied (h : Aged db₀ items db) (hop : id ∈ opIds) (hw : OpApplied me id db db') :
    Aged db₀ items db' := by
  rcases hw with hs | ⟨d, origin, seq, hd, hw⟩
  · exact aged_ofTables _ _ hs h
  · exact h.row hw hd.id (.inl hop) fun hno => absurd hop hno

theorem Aged.docHandled (h : Aged db₀ items db) {d' : Doc} (hd : d ∈ keptItems items)
    (hform : storedForm float d = .ok d') (hw : DocHandled me d' db db') :
    Aged db₀ items db' := by
  rcases hw with ⟨-, -, hs⟩ | ⟨hnew, origin, s, hv, hw⟩
  · exact aged_ofTables _ _ hs h
  · obtain ⟨aid, -, -, -, -, haid, -⟩ := hw.row
    have hid := docId_ok haid
    have hid₀ : d.get "id" = .str aid := by
      rw [← storedForm_get hform (by decide) (by decide)]
      exact hid
    obtain ⟨ho, -⟩ := incomingVersion_asInt hv
    refine h.row hw hid (.inr ⟨d, hd, hid₀⟩) ?_
    intro _ r hr
    rw [verdictOf_text hid, hr] at hnew
    obtain ⟨hor, a, ha, hlt⟩ := compareVersion_newer_iff.mp hnew
    rw [ho] at hor
    exact ⟨Val.str.inj (eqStr_iff.mp hor), a, ha, le_of_lt hlt⟩

end Aged

/-! ### What every row of an apply keeps -/

/-- The apply may take the document: it is newer than the row it finds, or its id is one of a row the apply
writes for itself. -/
def MayTake (db : Store) (d : Doc) : Prop := verdictOf db d = .newer ∨ ∃ id ∈ opIds, d.get "id" = .str id

theorem OpPut.opApplied (h : OpPut me d a b) (hd : OpShaped id d) :
    OpApplied me id a b := by
  obtain ⟨origin, seq, hw⟩ := h
  exact .inr ⟨_, origin, seq, hd.pinned, hw⟩

/-- **An apply and the vertices.** -/
theorem applied_keeps_rows {K : Store → Prop} (hvertex : ∀ a b, b.vertex = a.vertex → K a → K b)
    (hdoc : ∀ d ∈ keptItems items, MayTake n.db d → ∀ d', storedForm float d = .ok d' → ∀ origin seq a b,
      RowWritten n.origin d' origin seq a b → K a → K b)
    (hop : ∀ id ∈ opIds, ∀ d, OpShaped id d → ∀ origin seq a b, RowWritten n.origin d origin seq a b →
      K a → K b) (edges : List Doc) (hn : K n.db) (hi : n.inTxn = false) :
    K (n.applied float items edges).db ∧ (n.applied float items edges).inTxn = false := by
  have htables : OfTables fun b => Aged n.db items b ∧ K b :=
    fun a b hs h => ⟨aged_ofTables a b hs h.1, hvertex a b hs.vertex h.2⟩
  have happlied : ∀ {id : String} {a b : Store}, id ∈ opIds → OpApplied n.origin id a b →
      Aged n.db items a ∧ K a → Aged n.db items b ∧ K b := by
    rintro id a b hid (hs | ⟨d, origin, seq, hd, hw⟩) h
    · exact htables a b hs h
    · exact ⟨h.1.opApplied hid (.inr ⟨d, origin, seq, hd, hw⟩), hop id hid d hd origin seq a b hw h.2⟩
  have hrules : ApplyRules (fun b => Aged n.db items b ∧ K b) n.origin float items :=
    { tables := htables
      docs := by
        intro d hd d' hform a b hw h
        refine ⟨h.1.docHandled hd hform hw, ?_⟩
        rcases hw with ⟨-, -, hs⟩ | ⟨hnew, origin, s, -, hw⟩
        · exact hvertex a b hs.vertex h.2
        · refine hdoc d hd ?_ d' hform _ _ a b hw h.2
          obtain ⟨aid, -, -, -, -, haid, -⟩ := hw.row
          have hget : ∀ k, k ≠ "context" → k ≠ "state" → d'.get k = d.get k := fun k => storedForm_get hform
          have hid : d.get "id" = .str aid := (hget _ (by decide) (by decide)).symm.trans (docId_ok haid)
          by_cases hmem : aid ∈ opIds
          · exact .inr ⟨aid, hmem, hid⟩
          · refine .inl (h.1.newer hmem hid ?_).1
            rw [verdictOf_text hid]
            rw [verdictOf_text (docId_ok haid), hget _ (by decide) (by decide), hget _ (by decide) (by decide)]
              at hnew
            exact hnew
      queue := fun ids a b hw => happlied (by decide) (hw.opApplied (opShaped_consumedDoc a ids))
      links := fun arg a b hw h => ⟨h.1.of_vertex hw.vertex, hvertex a b hw.vertex h.2⟩ }
  have hrecord := fun b (hb : DeclinedBy n.origin (newlyDeclined n.db (keptItems items)) n.db b) =>
    happlied (b := b) (by decide) hb.opApplied
  obtain ⟨hat, hi'⟩ := applied_keeps hrules hrecord edges ⟨aged_refl n.db items, hn⟩ hi
  exact ⟨hat.holds.2, hi'⟩

end Mantle
