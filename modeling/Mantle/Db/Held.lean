import Mantle.Db.Bulk
import Mantle.Db.Documented

/-!
# Mantle.Db.Held — whose row lies under an id

`OriginAt Q id` speaks of the origin of the row under one id, if there is a row; it survives every act that neither
deletes that row nor writes it under an origin the fact excludes.
-/

namespace Mantle

open Tx

variable {aid id : String} {doc : Doc} {n : Node}

/-- What is said of the origin of the row under an id, `none` when there is no row. -/
def Store.OriginAt (Q : Option String → Prop) (id : String) (db : Store) : Prop :=
  Q ((db.vertex.lookup id).map fun r => r.origin)

/-! ### What an act may do to a row -/

/-- The id of a document, when it is a text. -/
def docIds (d : Doc) : List String :=
  match d.get "id" with
  | .str s => [s]
  | _ => []

theorem mem_docIds {d : Doc} : id ∈ docIds d ↔ d.get "id" = .str id := by
  unfold docIds
  split
  · rename_i s hs
    rw [hs, List.mem_singleton, Val.str.injEq, eq_comm]
  · rename_i hno
    exact ⟨(fun h => nomatch h), fun h => absurd h (hno id)⟩

def docOrigins (d : Doc) : List (String × String) :=
  match d.get "_origin" with
  | .str o => (docIds d).map fun id => (id, o)
  | _ => []

theorem mem_docOrigins {d : Doc} {o : String} :
    (id, o) ∈ docOrigins d ↔ d.get "id" = .str id ∧ d.get "_origin" = .str o := by
  unfold docOrigins
  split
  · rename_i o' ho
    rw [ho]
    simp [mem_docIds, eq_comm]
  · rename_i hno
    exact ⟨(fun h => nomatch h), fun h => absurd h.2 (hno o)⟩

mutual

def Act.deletes : Act → List String
  | .deleteArtifact id => [id]
  | .evictArtifact id => [id]
  | .transaction acts _ => Act.allDeletes acts
  | _ => []

def Act.allDeletes : List Act → List String
  | [] => []
  | a :: acts => a.deletes ++ Act.allDeletes acts

end

mutual

/-- The ids of the documents an act writes under the node's own name. -/
def Act.stamps : Act → List String
  | .putArtifact doc true _ => docIds doc
  | .putMany docs _ true _ => docs.flatMap docIds
  | .transaction acts _ => Act.allStamps acts
  | _ => []

def Act.allStamps : List Act → List String
  | [] => []
  | a :: acts => a.stamps ++ Act.allStamps acts

end

mutual

/-- The ids of the documents an act writes under an origin they bring, whatever row is there. -/
def Act.carries : Act → List (String × String)
  | .putArtifact doc false _ => docOrigins doc
  | .putMany docs _ false .takeRemote => docs.flatMap docOrigins
  | .transaction acts _ => Act.allCarries acts
  | _ => []

def Act.allCarries : List Act → List (String × String)
  | [] => []
  | a :: acts => a.carries ++ Act.allCarries acts

end

/-- An act leaves a fact about the row of `id` alone.  A document with no name is never written. -/
structure Act.Allows (Q : Option String → Prop) (id : String) (a : Act) : Prop where
  deletes : id ∈ a.deletes → Q none
  stamps : id ≠ "" → id ∈ a.stamps → ∀ o, Q (some o)
  carries : id ≠ "" → ∀ o, (id, o) ∈ a.carries → Q (some o)

theorem Act.Allows.meets {Q : Option String → Prop} :
    ∀ (a : Act) (db : Store), a.Allows Q id → a.Meets (fun _ a => a.Allows Q id) db := by
  refine Act.induct (Q := fun acts => (id ∈ Act.allDeletes acts → Q none) →
    (id ≠ "" → id ∈ Act.allStamps acts → ∀ o, Q (some o)) →
    (id ≠ "" → ∀ o, (id, o) ∈ Act.allCarries acts → Q (some o)) → Act.AllMeet (fun _ a => a.Allows Q id) acts) ?_ ?_ ?_ ?_
  · exact fun a ha db h => (Act.meets_single ha db).mpr h
  · rintro acts raises ih db ⟨hd, hs, hc⟩
    rw [Act.deletes] at hd
    rw [Act.stamps] at hs
    rw [Act.carries] at hc
    rw [Act.Meets]
    exact ih hd hs hc
  · intro _ _ _
    rw [Act.AllMeet]
    trivial
  · intro a acts ha ih hd hs hc
    rw [Act.allDeletes, List.mem_append] at hd
    rw [Act.allStamps, List.mem_append] at hs
    simp only [Act.allCarries, List.mem_append] at hc
    rw [Act.AllMeet]
    refine ⟨fun db => ha db ⟨fun h => hd (.inl h), fun hn h => hs hn (.inl h), fun hn o h => hc hn o (.inl h)⟩, ?_⟩
    exact ih (fun h => hd (.inr h)) (fun hn h => hs hn (.inr h)) fun hn o h => hc hn o (.inr h)

/-! ### The invariant -/

section Keep

variable {Q : Option String → Prop} {id : String} {db db' : Store}

theorem Store.OriginAt.congr (h : db.OriginAt Q id)
    (hrow : (db'.vertex.lookup id).map (fun r => r.origin) = (db.vertex.lookup id).map fun r => r.origin) :
    db'.OriginAt Q id := by
  unfold Store.OriginAt at h ⊢
  rwa [hrow]

theorem Store.OriginAt.of_vertex (h : db.OriginAt Q id) (hv : db'.vertex = db.vertex) : db'.OriginAt Q id :=
  h.congr (by rw [hv])

theorem Store.OriginAt.insert (h : db.OriginAt Q id) {row : VRow}
    (hv : db'.vertex = db.vertex.insert aid row) (hland : aid = id → Q (some row.origin)) :
    db'.OriginAt Q id := by
  by_cases ha : id = aid
  · unfold Store.OriginAt
    rw [hv, Table.lookup_insert_of, if_pos ha]
    exact hland ha.symm
  · refine h.congr ?_
    rw [hv, Table.lookup_insert_of, if_neg ha]

theorem Store.OriginAt.erase (h : db.OriginAt Q id) (hv : db'.vertex = db.vertex.erase aid)
    (hgone : id = aid → Q none) : db'.OriginAt Q id := by
  by_cases ha : id = aid
  · unfold Store.OriginAt
    rw [hv, Table.lookup_erase_of, if_pos ha]
    exact hgone ha
  · refine h.congr ?_
    rw [hv, Table.lookup_erase_of, if_neg ha]

theorem Store.OriginAt.patch (h : db.OriginAt Q id) {aid : String} {r : VRow} {col : JsonCol}
    (hr : db.vertex.lookup aid = some r) (hv : db'.vertex = db.vertex.insert aid { r with doc := col }) :
    db'.OriginAt Q id := by
  refine h.insert hv ?_
  rintro rfl
  unfold Store.OriginAt at h
  rwa [hr] at h

theorem Store.OriginAt.rowWritten (h : db.OriginAt Q id) {me origin : String} {seq : Val}
    (hw : RowWritten me doc origin seq db db') (hland : doc.get "id" = .str id → Q (some origin)) :
    db'.OriginAt Q id := by
  obtain ⟨aid, s, leaf, row, m, haid, -, hrow, hmv, -, hpl⟩ := hw.row
  obtain ⟨hro, -, -, -⟩ := vertexRow_ok hrow
  obtain ⟨huo, -, -, -⟩ := upsertVertex_fields (db.vertex.lookup aid) row
  refine h.insert ((PlaceWritten.edges hpl).1.trans hmv) ?_
  rintro rfl
  rw [huo, hro]
  exact hland (docId_ok haid)

theorem originAt_rowRules (Q : Option String → Prop) (id : String) :
    RowRules (Store.OriginAt Q id) fun d => d.get "id" = .str id → ∀ o, Q (some o) where
  seq := fun _ _ h => h.of_vertex rfl
  conflict := fun _ h => ⟨h.of_vertex rfl, h.of_vertex rfl⟩
  accept := fun _ _ _ _ _ _ _ _ _ _ h => h.of_vertex (Store.acceptEdge_tables _ _ _ _ _).2
  retire := fun _ _ _ _ _ h => h.of_vertex rfl
  row := fun db aid doc _ _ _ _ row t hok _ haid _ _ _ h =>
    h.insert (Store.rowStored_rows db aid _ row _ t).1 (by rintro rfl; exact hok (docId_ok haid) _)
  reparent := by
    intro doc v h hid
    rw [Doc.get_set_of_ne _ _ (by decide)] at hid
    exact h hid

theorem named_of_truthy (hid : doc.get "id" = .str id) (h : (doc.get "id").truthy = true) :
    id ≠ "" := by
  rw [hid, Val.truthy_str, decide_eq_true_eq] at h
  exact h

theorem originAt_putConsumed (newVersion : Bool)
    (hcarry : id ≠ "" → ∀ o, (id, o) ∈ docOrigins doc → Q (some o)) :
    Keeps (Store.OriginAt Q id) (putArtifact doc false newVersion) n := by
  rw [putArtifact_consumed]
  refine keeps_ite (fun _ => keeps_throw _ n) fun htruthy => keeps_write (originAt_rowRules Q id).seq ?_
  intro m _ hi
  refine keeps_inside hi fun hm => ?_
  refine ((putConsumed_tables doc m).and (putConsumed_sameEnv doc m)).mono ?_ fun m' h => h.2.inTxn
  rintro d m' ⟨⟨origin, s, hv, hw⟩, he⟩
  refine ⟨hm.rowWritten hw fun hid => ?_, he.inTxn⟩
  exact hcarry (named_of_truthy hid (by simpa using htruthy)) origin
    (mem_docOrigins.mpr ⟨hid, (incomingVersion_asInt hv).1⟩)

section Held

variable (hnone : Q none → id = "")
include hnone

theorem originAt_putOne {onUnordered : OnUnordered} (hi : n.inTxn = true)
    (hcarry : onUnordered = .takeRemote → id ≠ "" → ∀ o, (id, o) ∈ docOrigins doc → Q (some o)) :
    Keeps (Store.OriginAt Q id) (putOne false onUnordered doc) n := by
  by_cases htruthy : (doc.get "id").truthy = true
  · refine keeps_inside hi fun hn => ?_
    refine ((putOne_tables onUnordered doc n).and (putOne_sameEnv false onUnordered doc n)).mono ?_
      fun n' h => h.2.inTxn
    rintro k n' ⟨⟨-, ⟨-, hs⟩ | ⟨hone, origin, s, hv, hw⟩⟩, he⟩
    · exact ⟨hn.of_vertex hs.vertex, he.inTxn⟩
    · refine ⟨hn.rowWritten hw ?_, he.inTxn⟩
      intro hid
      obtain ⟨ho, -⟩ := incomingVersion_asInt hv
      unfold Store.OriginAt at hn
      unfold oneRows at hone
      rw [if_neg Bool.false_ne_true] at hone
      cases hver : verdictOf n.db doc with
      | newer =>
        rw [verdictOf_text hid] at hver
        cases hr : n.db.vertex.lookup id with
        | none =>
          rw [hr] at hn
          exact absurd (hnone hn) (named_of_truthy hid htruthy)
        | some r =>
          rw [hr] at hver hn
          obtain ⟨hor, -⟩ := compareVersion_newer_iff.mp hver
          rw [ho] at hor
          rw [Val.str.inj (eqStr_iff.mp hor)]
          exact hn
      | unordered =>
        rw [hver] at hone
        cases onUnordered with
        | takeRemote => exact hcarry rfl (named_of_truthy hid htruthy) origin (mem_docOrigins.mpr ⟨hid, ho⟩)
        | keepLocal => cases hone
        | error => cases hone
      | older =>
        rw [hver] at hone
        cases hone
      | same =>
        rw [hver] at hone
        cases hone
  · rw [Bool.not_eq_true] at htruthy
    unfold putOne
    rw [if_pos (by simp [htruthy])]
    exact keeps_throw _ n

theorem originAt_putStamped (newVersion : Bool) (hstamp : id ≠ "" → id ∈ docIds doc → ∀ o, Q (some o)) :
    Keeps (Store.OriginAt Q id) (putArtifact doc true newVersion) n := by
  by_cases htruthy : (doc.get "id").truthy = true
  · intro hn
    refine keeps_putArtifact (originAt_rowRules Q id) ?_ hn
    intro d hd hid
    rcases mem_putRows_snapshot hd with rfl | ⟨aid, p, -, hfree, rfl⟩
    · exact hstamp (named_of_truthy hid htruthy) (mem_docIds.mpr hid)
    · rw [snapshotDoc_id] at hid
      cases hid
      unfold Store.OriginAt at hn
      rw [hfree] at hn
      exact absurd (hnone hn) (snapshotId_ne aid p)
  · rw [Bool.not_eq_true] at htruthy
    unfold putArtifact
    rw [if_pos (by simp [htruthy])]
    exact keeps_throw _ n

omit hnone in
theorem originAt_putOneStamped {onUnordered : OnUnordered} (hi : n.inTxn = true)
    (hstamp : id ≠ "" → id ∈ docIds doc → ∀ o, Q (some o)) :
    Keeps (Store.OriginAt Q id) (putOne true onUnordered doc) n := by
  by_cases htruthy : (doc.get "id").truthy = true
  · exact keeps_putOne (originAt_rowRules Q id)
      (fun hid => hstamp (named_of_truthy hid htruthy) (mem_docIds.mpr hid)) hi
  · rw [Bool.not_eq_true] at htruthy
    unfold putOne
    rw [if_pos (by simp [htruthy])]
    exact keeps_throw _ n

theorem originAt_single {a : Act} (n : Node) (ha : a.Single) (h : a.Allows Q id) :
    Keeps (Store.OriginAt Q id) (exec a) n := by
  have hedge := (originAt_rowRules Q id).toEdgeRules
  have hbumps : ∀ (db : Store) (deltas : List (String × ℤ)), db.OriginAt Q id →
      (db.bumps deltas).OriginAt Q id :=
    fun db deltas h => h.of_vertex (Store.bumps_sameRows deltas db).vertex
  have hmoved : ∀ {x : String} {t t' : TaskRow} {fields : Doc} {db db' : Store},
      TaskMoved x t t' fields db db' → db.OriginAt Q id → db'.OriginAt Q id := by
    intro x t t' fields db db' hm h
    rcases hm.vertex with ⟨-, hv⟩ | ⟨r, col, hr, -, hv⟩
    · exact h.of_vertex hv
    · exact h.patch hr hv
  refine hedge.exec ha ?_ ?_ (fun _ _ _ _ _ _ _ h => h.of_vertex rfl) ?_
    fun hp => keeps_patches hedge.seq hp ?_ fun hm h => hmoved hm h
  · rintro doc stampRev newVersion rfl
    cases stampRev with
    | true => exact originAt_putStamped hnone newVersion h.stamps
    | false => exact originAt_putConsumed newVersion h.carries
  · rintro docs batch stampRev onUnordered rfl
    refine keeps_bulk (originAt_rowRules Q id).seq fun doc hdoc m _ hi => ?_
    cases stampRev with
    | true =>
      refine originAt_putOneStamped hi fun hne hid => h.stamps hne ?_
      exact List.mem_flatMap.mpr ⟨doc, hdoc, hid⟩
    | false =>
      refine originAt_putOne hnone hi ?_
      rintro rfl hne o ho
      exact h.carries hne o (List.mem_flatMap.mpr ⟨doc, hdoc, ho⟩)
  · intro db x b r hd _ _ hdb
    refine hdb.erase (Store.rowDeleted_rows db x r b).1 fun he => h.deletes ?_
    cases a <;> first
      | exact hd.elim
      | exact List.mem_singleton.mpr (he.trans hd.1.symm)
  · exact fun _ _ chunk _ => keeps_relabelChunk (fun db aid r col h hr _ => h.patch hr rfl)
      (fun db _ _ h => hbumps db _ h) (fun db _ _ _ _ h => hbumps db _ h) chunk

theorem originAt_exec (a : Act) (n : Node) (h : a.Allows Q id) : Keeps (Store.OriginAt Q id) (exec a) n :=
  keeps_exec (originAt_rowRules Q id).seq (fun _ n ha h => originAt_single hnone n ha h) a n (h.meets a n.db)

end Held

end Keep

/-! ### What raises -/

theorem write_rolledBack {α : Type} {body : DbM α} {n' : Node} {e : PyErr} (hi : n.inTxn = false)
    (h : write body n = .error e n') : n'.db = n.db := by
  rw [write_own hi] at h
  cases hr : (do let a ← body; flush; pure a : DbM α) n.begin with
  | ok a m =>
    rw [hr] at h
    cases h
  | error e' m =>
    rw [hr] at h
    cases h
    rfl

theorem Act.deletes_rolledBack {a : Act} {n' : Node} {e : PyErr} (hd : a.deletes ≠ []) (hi : n.inTxn = false)
    (h : exec a n = .error e n') : n'.db = n.db := by
  cases a with
  | deleteArtifact id => exact write_rolledBack hi h
  | evictArtifact id => exact write_rolledBack hi h
  | transaction acts raises =>
    rw [exec] at h
    exact write_rolledBack hi h
  | _ => exact absurd rfl hd

theorem syncTask_gone (aid : String) (d : Doc) (ct : Val) (n : Node) :
    Runs (syncTask aid (some d) none ct) n
      (fun _ n' => ∃ db', db'.vertex = n.db.vertex ∧ n' = { n with db := db' }) fun _ => False := by
  have hun : Runs (uncountTask (some d)) n
      (fun _ n' => ∃ db', db'.vertex = n.db.vertex ∧ n' = { n with db := db' }) fun _ => False := by
    unfold uncountTask
    split
    · exact runs_modify ⟨n.db.bump (cTaskStatus _ _) (-1), rfl, rfl⟩
    · exact runs_pure ⟨n.db, rfl, rfl⟩
  refine runs_bind (hun.imp ?_)
  rintro - n₁ ⟨db₁, hv, rfl⟩
  exact runs_modify ⟨{ db₁ with task := db₁.task.erase aid }, hv, rfl⟩

theorem evictArtifact_runs (id : String) (hi : n.inTxn = false) :
    Runs (evictArtifact id) n
      (fun _ n' => n'.db.vertex = n.db.vertex.erase id ∧ n'.inTxn = false) fun _ => False := by
  unfold evictArtifact deleteArtifact
  refine runs_bind (runs_get ?_)
  refine (write_exact (P := fun _ db' => db'.vertex = n.db.vertex.erase id) (F := False) ?_).mono ?_ ?_
  · intro m hm _
    rw [← hm]
    refine runs_read ?_
    cases hr : m.db.vertex.lookup id with
    | none =>
      refine runs_pure ⟨m.db, ?_, rfl⟩
      exact (Table.erase_of_lookup_none hr).symm
    | some r =>
      refine runs_bind (runs_modify (runs_bind (runs_pure ?_)))
      refine runs_bind ((settleRow_runs id r false _ _).imp ?_)
      rintro - m₁ rfl
      refine runs_bind (runs_modify ((syncTask_gone id r.doc.val r.ct _).mono ?_ fun _ h => h.elim))
      rintro - m₂ ⟨db', hv, rfl⟩
      refine ⟨db', hv.trans ?_, rfl⟩
      exact (Store.bumps_sameRows _ _).vertex
  · rintro - n' ⟨hv, hi'⟩
    exact ⟨hv, hi'.trans hi⟩
  · exact fun n' h => h.2.2

end Mantle
