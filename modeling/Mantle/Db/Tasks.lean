import Mantle.Py.Doc
import Mantle.Db.Keeps

/-!
# Mantle.Db.Tasks — the task pool mirrors the documents

A document with a status and a content type is a task, with one row in the sidecar (`PoolConsistent`).  The write path
derives the row; the four transitions move row, document and counters by hand.
-/

namespace Mantle

open Tx

variable {c : Val} {id toStatus : String} {newVersion stampRev : Bool}

variable {aid name : String} {d doc fields : Doc} {r : VRow} {t : TaskRow}

/-- The document has a status and a content type. -/
def IsTask (d : Doc) : Prop := (d.get "status").truthy = true ∧ (d.get "content_type").truthy = true

/-- The columns of the row are the document's fields, as the columns hold them. -/
structure Mirrors (t : TaskRow) (d : Doc) : Prop where
  ct : t.ct = (d.get "content_type").pyStr
  status : t.status = (d.get "status").pyStr
  priority : pyInt ((d.get "priority").orElse (.int 0)) = .ok t.priority
  operator : bindText (d.get "operator") = .ok t.operator
  taskKey : bindText (d.get "task_key") = .ok t.taskKey
  claimedBy : bindText (d.get "claimed_by") = .ok t.claimedBy
  claimedAt : bindText (d.get "claimed_at") = .ok t.claimedAt
  nextRetryAt : bindText (d.get "next_retry_at") = .ok t.nextRetryAt
  completedAt : bindText (d.get "completed_at") = .ok t.completedAt

/-- A task document whose status reads back as it is written, with names the counters can tell apart. -/
def TaskDoc (d : Doc) : Prop :=
  IsTask d → (d.get "status").norm.pyStr = (d.get "status").pyStr ∧
    ':' ∉ (d.get "status").pyStr.toList ∧ ':' ∉ (d.get "content_type").pyStr.toList

theorem bindText_norm (v : Val) : bindText v.norm = bindText v := by
  cases v <;> simp [Val.norm, bindText]

theorem pyInt_norm (v : Val) : pyInt v.norm = pyInt v := by
  cases v <;> simp [Val.norm, pyInt]

theorem orElse_norm (v : Val) (n : ℤ) : pyInt (v.norm.orElse (.int n)) = pyInt (v.orElse (.int n)) := by
  unfold Val.orElse
  rw [Val.truthy_norm]
  split_ifs
  · exact pyInt_norm v
  · rfl

theorem Mirrors.norm (h : Mirrors t d)
    (hct : (d.get "content_type").norm.pyStr = (d.get "content_type").pyStr)
    (hst : (d.get "status").norm.pyStr = (d.get "status").pyStr) : Mirrors t d.norm where
  ct := by rw [Doc.get_norm, hct, h.ct]
  status := by rw [Doc.get_norm, hst, h.status]
  priority := by rw [Doc.get_norm, orElse_norm, h.priority]
  operator := by rw [Doc.get_norm, bindText_norm, h.operator]
  taskKey := by rw [Doc.get_norm, bindText_norm, h.taskKey]
  claimedBy := by rw [Doc.get_norm, bindText_norm, h.claimedBy]
  claimedAt := by rw [Doc.get_norm, bindText_norm, h.claimedAt]
  nextRetryAt := by rw [Doc.get_norm, bindText_norm, h.nextRetryAt]
  completedAt := by rw [Doc.get_norm, bindText_norm, h.completedAt]

/-- The name is no status counter. -/
def OffTask (name : String) : Prop := ∀ ct status, name ≠ cTaskStatus ct status

theorem offTask_of_toList (h : ∀ cs, name.toList ≠ 't' :: cs) : OffTask name := by
  rintro ct status rfl
  exact h ("ask:".toList ++ ct.toList ++ ':' :: status.toList) (by simp [cTaskStatus])

theorem offTask_countedNames {ct : Val} (h : name ∈ countedNames doc ct) : OffTask name := by
  refine offTask_of_toList ?_
  unfold countedNames at h
  simp only [List.mem_append, List.mem_flatMap] at h
  rcases h with ((h | h) | h) | ⟨f, -, h⟩
  · split_ifs at h <;> simp_all [cCt]
  · split_ifs at h <;> simp_all [cState]
  · split_ifs at h <;> simp only [List.mem_cons, List.not_mem_nil, or_false] at h
    · rcases h with rfl | rfl <;> simp [cCollection]
    · subst h
      simp [cCollection]
  · split_ifs at h <;> simp only [List.mem_cons, List.not_mem_nil, or_false] at h
    · rcases h with rfl | rfl <;> simp [cMissing]
    · subst h
      simp [cMissing]

theorem offTask_rows (o : String) : OffTask (cRows o) := offTask_of_toList (by simp [cRows])
theorem offTask_vacated (o : String) : OffTask (cVacated o) := offTask_of_toList (by simp [cVacated])
theorem offTask_vertexTotal : OffTask cVertexTotal := offTask_of_toList (by simp [cVertexTotal])
theorem offTask_edgeTotal : OffTask cEdgeTotal := offTask_of_toList (by simp [cEdgeTotal])
theorem offTask_edgeLabel (l : String) : OffTask (cEdgeLabel l) :=
  offTask_of_toList (by simp [cEdgeLabel])
theorem counterOf_bump_off (h : OffTask name) (db : Store) (delta : ℤ) (ct status : String) :
    (db.bump name delta).counterOf (cTaskStatus ct status) =
      db.counterOf (cTaskStatus ct status) := by
  rw [Store.counterOf_bump, if_neg (fun e => h ct status e.symm), add_zero]

theorem counterOf_bumps_off : ∀ {deltas : List (String × ℤ)} (_ : ∀ e ∈ deltas, OffTask e.1) (db : Store)
    (ct status : String), (db.bumps deltas).counterOf (cTaskStatus ct status) =
      db.counterOf (cTaskStatus ct status)
  | [], _, _, _, _ => rfl
  | e :: deltas, h, db, ct, status => by
    have ih := @counterOf_bumps_off deltas (fun e' he' => h e' (by simp [he']))
      (db.bump e.1 e.2) ct status
    exact ih.trans (counterOf_bump_off (h e (by simp)) db e.2 ct status)

theorem counterOf_vacate_off (db : Store) (o ct status : String) :
    (db.vacate o).counterOf (cTaskStatus ct status) = db.counterOf (cTaskStatus ct status) := by
  unfold Store.vacate
  split_ifs
  · rfl
  · have h1 := counterOf_bump_off (offTask_vacated o) (db.bump (cRows o) (-1)) 1 ct status
    have h2 := counterOf_bump_off (offTask_rows o) db (-1) ct status
    exact h1.trans h2

def RowFor : Option TaskRow → Doc → Prop
  | none, d => ¬IsTask d
  | some t, d => IsTask d ∧ Mirrors t d

/-- Whether a row is counted under a name. -/
def tally (name : String) (_ : String) (t : TaskRow) : ℤ := if cTaskStatus t.ct t.status = name then 1 else 0

/-- What every step keeps. -/
structure TaskInv (db : Store) : Prop where
  normal : ∀ id r, db.vertex.lookup id = some r → r.doc.val.norm = r.doc.val
  absent : ∀ id, db.vertex.lookup id = none → db.task.lookup id = none
  present : ∀ id r, db.vertex.lookup id = some r → RowFor (db.task.lookup id) r.doc.val
  plain : ∀ id t, db.task.lookup id = some t → ':' ∉ t.ct.toList ∧ ':' ∉ t.status.toList
  count : ∀ ct status, db.counterOf (cTaskStatus ct status) =
    db.task.sumBy (tally (cTaskStatus ct status))

variable {db db' : Store}

theorem TaskInv.of_frame (h : TaskInv db) (hv : db'.vertex = db.vertex) (ht : db'.task = db.task)
    (hc : ∀ ct status, db'.counterOf (cTaskStatus ct status) = db.counterOf (cTaskStatus ct status)) :
    TaskInv db' where
  normal := by
    rw [hv]
    exact h.normal
  absent := by
    rw [hv, ht]
    exact h.absent
  present := by
    rw [hv, ht]
    exact h.present
  plain := by
    rw [ht]
    exact h.plain
  count := by
    intro ct status
    rw [hc, ht]
    exact h.count ct status

theorem TaskInv.bump (h : TaskInv db) (hn : OffTask name) (delta : ℤ) :
    TaskInv (db.bump name delta) :=
  h.of_frame rfl rfl fun ct status => counterOf_bump_off hn db delta ct status

theorem sumBy_setTask (w : String → TaskRow → ℤ) (tasks : Table String TaskRow) (aid : String)
    (t : Option TaskRow) : (Store.setTask tasks aid t).sumBy w =
      tasks.sumBy w - tasks.weightAt w aid + t.elim 0 (w aid) := by
  cases t with
  | some t => exact Table.sumBy_insert
  | none => simpa [Store.setTask] using Table.sumBy_erase

theorem uncounted_counter (h : TaskInv db) (hr : db.vertex.lookup aid = some r) (db₁ : Store)
    (ct status : String) :
    (db₁.uncounted (some r.doc.val)).counterOf (cTaskStatus ct status) =
      db₁.counterOf (cTaskStatus ct status) - db.task.weightAt (tally (cTaskStatus ct status)) aid := by
  have hrow := h.present aid r hr
  unfold Store.uncounted
  cases ht : db.task.lookup aid with
  | none =>
    rw [ht] at hrow
    rw [Table.weightAt_none ht, sub_zero]
    cases hst : fieldText (some r.doc.val) "status" with
    | none => rfl
    | some st =>
      cases hct : fieldText (some r.doc.val) "content_type" with
      | none => rfl
      | some c =>
        refine absurd ⟨?_, ?_⟩ hrow
        · by_contra hf
          simp [fieldText, hf] at hst
        · by_contra hf
          simp [fieldText, hf] at hct
  | some t =>
    rw [ht] at hrow
    obtain ⟨⟨hs, hc⟩, hm⟩ := hrow
    rw [Table.weightAt_some ht]
    simp only [fieldText, hs, hc, if_true]
    rw [Store.counterOf_bump]
    unfold tally
    rw [hm.ct, hm.status]
    by_cases he : cTaskStatus (r.doc.val.get "content_type").pyStr (r.doc.val.get "status").pyStr =
        cTaskStatus ct status
    · simp [he, sub_eq_add_neg]
    · have he' : ¬cTaskStatus ct status = cTaskStatus (r.doc.val.get "content_type").pyStr
          (r.doc.val.get "status").pyStr := fun e => he e.symm
      simp [he, he']

theorem tasked_counter (db : Store) (aid : String) (t : Option TaskRow) (ct status : String) :
    (db.tasked aid t).counterOf (cTaskStatus ct status) =
      db.counterOf (cTaskStatus ct status) + t.elim 0 (tally (cTaskStatus ct status) aid) := by
  cases t with
  | none => simp [Store.tasked, Store.counterOf]
  | some t =>
    have h := Store.counterOf_bump db (cTaskStatus t.ct t.status) 1 (cTaskStatus ct status)
    have hb : (db.tasked aid (some t)).counterOf (cTaskStatus ct status) =
        (db.bump (cTaskStatus t.ct t.status) 1).counterOf (cTaskStatus ct status) := rfl
    rw [hb, h]
    simp only [Option.elim_some, tally]
    by_cases he : cTaskStatus t.ct t.status = cTaskStatus ct status
    · simp [he]
    · have he' : ¬cTaskStatus ct status = cTaskStatus t.ct t.status := fun e => he e.symm
      simp [he, he']

theorem acceptVertex_taskCounter (db : Store) (aid : String) (row : VRow) (seq : Val)
    (ct status : String) : (db.acceptVertex aid row seq).counterOf (cTaskStatus ct status) =
      db.counterOf (cTaskStatus ct status) := by
  unfold Store.acceptVertex
  cases db.vertex.lookup aid with
  | none => exact counterOf_bump_off (offTask_rows _) _ _ ct status
  | some p =>
    exact (counterOf_bump_off (offTask_rows _) _ _ ct status).trans
      (counterOf_vacate_off _ _ ct status)

theorem recounted_taskCounter (db : Store) (old : Option Doc) (new : Doc) (oldCt newCt : Val)
    (ct status : String) : (db.recounted old new oldCt newCt).counterOf (cTaskStatus ct status) =
      db.counterOf (cTaskStatus ct status) := by
  unfold Store.recounted
  rw [counterOf_bumps_off (forall_counterDeltas fun _ _ _ h => offTask_countedNames h)]
  split_ifs
  · exact counterOf_bump_off offTask_vertexTotal db 1 ct status
  · rfl

/-- **A stored row**: the vertex, the task row and the counter move together. -/
theorem TaskInv.rowStored (h : TaskInv db) {row : VRow} {seq : Val} {t : Option TaskRow}
    (hdoc : row.doc.val = d.norm) (hrow : RowFor t d.norm)
    (hplain : ∀ u, t = some u → ':' ∉ u.ct.toList ∧ ':' ∉ u.status.toList) :
    TaskInv (db.rowStored aid d row seq t) := by
  obtain ⟨hv, -, ht⟩ := Store.rowStored_rows db aid d row seq t
  have hup : (upsertVertex (db.vertex.lookup aid) row).doc.val = d.norm := by
    rw [(upsertVertex_fields _ row).2.2.2, hdoc]
  refine ⟨?_, ?_, ?_, ?_, ?_⟩
  · intro id r hr
    rw [hv, Table.lookup_insert_of] at hr
    split_ifs at hr
    · cases hr
      rw [hup, Doc.norm_norm]
    · exact h.normal id r hr
  · intro id hr
    rw [hv, Table.lookup_insert_of] at hr
    rw [ht, Store.lookup_setTask]
    split_ifs at hr ⊢
    exact h.absent id hr
  · intro id r hr
    rw [hv, Table.lookup_insert_of] at hr
    rw [ht, Store.lookup_setTask]
    split_ifs at hr ⊢
    · cases hr
      rw [hup]
      exact hrow
    · exact h.present id r hr
  · intro id u hu
    rw [ht, Store.lookup_setTask] at hu
    split_ifs at hu
    · exact hplain u hu
    · exact h.plain id u hu
  · intro ct status
    rw [ht, sumBy_setTask]
    unfold Store.rowStored
    rw [tasked_counter]
    congr 1
    rw [← h.count]
    cases hp : db.vertex.lookup aid with
    | none =>
      rw [Table.weightAt_none (h.absent aid hp), sub_zero]
      exact (recounted_taskCounter _ _ _ _ _ ct status).trans
        (acceptVertex_taskCounter _ _ _ _ ct status)
    | some p =>
      have hun := uncounted_counter h hp
      simp only [Option.map_some]
      rw [hun, recounted_taskCounter, acceptVertex_taskCounter]

theorem retireEdge_taskCounter (db : Store) (key : EdgeKey) (label : String) (leaf : ℕ) (r : ERow)
    (ct status : String) : (db.retireEdge key label leaf r).counterOf (cTaskStatus ct status) =
      db.counterOf (cTaskStatus ct status) := by
  unfold Store.retireEdge
  refine (counterOf_vacate_off _ _ ct status).trans ?_
  refine (counterOf_bump_off (offTask_edgeLabel _) _ _ ct status).trans ?_
  exact counterOf_bump_off offTask_edgeTotal _ _ ct status

theorem TaskInv.retireEdge (h : TaskInv db) (key : EdgeKey) (label : String) (leaf : ℕ) (r : ERow) :
    TaskInv (db.retireEdge key label leaf r) :=
  h.of_frame rfl rfl (retireEdge_taskCounter db key label leaf r)

theorem TaskDoc.congr {d' : Doc} (h : TaskDoc d) (hs : d'.get "status" = d.get "status")
    (hc : d'.get "content_type" = d.get "content_type") : TaskDoc d' := by
  unfold TaskDoc IsTask at h ⊢
  rw [hs, hc]
  exact h

theorem mem_putRows_snapshot (h : d ∈ putRows db doc stampRev newVersion) :
    d = doc ∨ ∃ aid p, db.vertex.lookup aid = some p ∧ db.vertex.lookup (snapshotId aid p) = none ∧
      d = snapshotDoc aid p := by
  unfold putRows at h
  rcases List.mem_append.mp h with h | h
  · right
    split_ifs at h with hc
    · cases hid : (doc.get "id").asStr with
      | none => simp [hid] at h
      | some aid =>
        cases hp : db.vertex.lookup aid with
        | none => simp [hid, hp] at h
        | some p =>
          simp only [hid, hp] at h
          split_ifs at h with hcut
          · unfold snapshotRows at h
            split_ifs at h with hno
            · cases h
            · rw [not_or, not_or] at hno
              exact ⟨aid, p, hp, by simpa using hno.2.2, List.mem_singleton.mp h⟩
          · cases h
    · cases h
  · exact .inl (List.mem_singleton.mp h)

theorem mem_putRows (h : d ∈ putRows db doc stampRev newVersion) :
    d = doc ∨ ∃ aid p, db.vertex.lookup aid = some p ∧ d = snapshotDoc aid p := by
  rcases mem_putRows_snapshot h with rfl | ⟨aid, p, hp, -, rfl⟩
  · exact .inl rfl
  · exact .inr ⟨aid, p, hp, rfl⟩

theorem snapshotDoc_id (aid : String) (p : VRow) :
    (snapshotDoc aid p).get "id" = .str (snapshotId aid p) := by
  unfold snapshotDoc
  rw [Doc.get_set_of_ne _ _ (by decide), Doc.get_set_of_ne _ _ (by decide), Doc.get_set_self]

theorem snapshotId_ne (aid : String) (p : VRow) : snapshotId aid p ≠ "" := by
  intro he
  have := congrArg String.toList he
  simp [snapshotId] at this

theorem snapshotDoc_get {p : VRow} {k : String} (h1 : k ≠ "id") (h2 : k ≠ "root_id") (h3 : k ≠ "state") :
    (snapshotDoc aid p).get k = p.doc.val.get k := by
  unfold snapshotDoc
  rw [Doc.get_set_of_ne _ _ h3, Doc.get_set_of_ne _ _ h2, Doc.get_set_of_ne _ _ h1]

theorem TaskInv.rowDeleted (h : TaskInv db) (accounted : Bool) (hr : db.vertex.lookup aid = some r) :
    TaskInv (db.rowDeleted aid r accounted) := by
  obtain ⟨hv, -, ht⟩ := Store.rowDeleted_rows db aid r accounted
  refine ⟨?_, ?_, ?_, ?_, ?_⟩
  · intro id r' hr'
    rw [hv, Table.lookup_erase_of] at hr'
    split_ifs at hr'
    exact h.normal id r' hr'
  · intro id hr'
    rw [hv, Table.lookup_erase_of] at hr'
    rw [ht, Table.lookup_erase_of]
    split_ifs at hr' ⊢
    · rfl
    · exact h.absent id hr'
  · intro id r' hr'
    rw [hv, Table.lookup_erase_of] at hr'
    rw [ht, Table.lookup_erase_of]
    split_ifs at hr' ⊢
    exact h.present id r' hr'
  · intro id u hu
    rw [ht, Table.lookup_erase_of] at hu
    split_ifs at hu
    exact h.plain id u hu
  · intro ct status
    rw [ht, Table.sumBy_erase, ← h.count]
    unfold Store.rowDeleted
    rw [tasked_counter, uncounted_counter h hr,
      counterOf_bumps_off (forall_counterDeltas fun _ _ _ hn => offTask_countedNames hn)]
    have hsettle : ((db.eraseVertex aid).settleVertex aid r accounted).counterOf (cTaskStatus ct status) =
        db.counterOf (cTaskStatus ct status) := by
      cases accounted with
      | true =>
        exact (counterOf_vacate_off _ _ ct status).trans
          (counterOf_bump_off offTask_vertexTotal _ _ ct status)
      | false => exact counterOf_bump_off offTask_vertexTotal _ _ ct status
    rw [hsettle]
    simp

/-! ### The transitions -/

theorem get_patched {d fields : Doc} (hn : d.norm = d) (hf : Json.KeysNodup fields) (k : String) :
    (d.update fields).norm.get k = ((fields.find? k).map Val.norm).getD (d.get k) := by
  rw [Doc.get_norm]
  unfold Doc.get
  rw [Doc.find?_update hf]
  cases hk : fields.find? k with
  | some v => simp
  | none =>
    have h := Doc.get_norm d k
    rw [hn] at h
    simpa [Doc.get] using h.symm

/-- **A moved task**: the row, the document and the counters move together. -/
theorem TaskInv.moved (h : TaskInv db) {t' : TaskRow} (ht : db.task.lookup id = some t)
    (hm : TaskMoved id t t' fields db db') (hct : t'.ct = t.ct) (hplain : ':' ∉ t'.status.toList)
    (hrow : ∀ r, db.vertex.lookup id = some r → IsTask r.doc.val → Mirrors t r.doc.val →
      RowFor (some t') (r.doc.val.update fields).norm) : TaskInv db' := by
  rcases hm.vertex with ⟨hnone, -⟩ | ⟨r, col, hr, hcol, hv⟩
  · rw [h.absent id hnone] at ht
    cases ht
  have hval := Doc.toCol_ok hcol
  have hfor : RowFor (some t') col.val := by
    have hp := h.present id r hr
    rw [ht] at hp
    rw [hval]
    exact hrow r hr hp.1 hp.2
  refine ⟨?_, ?_, ?_, ?_, ?_⟩
  · intro x r' hr'
    rw [hv, Table.lookup_insert_of] at hr'
    split_ifs at hr'
    · cases hr'
      change col.val.norm = col.val
      rw [hval, Doc.norm_norm]
    · exact h.normal x r' hr'
  · intro x hx
    rw [hv, Table.lookup_insert_of] at hx
    rw [hm.task, Table.lookup_insert_of]
    split_ifs at hx ⊢
    exact h.absent x hx
  · intro x r' hr'
    rw [hv, Table.lookup_insert_of] at hr'
    rw [hm.task, Table.lookup_insert_of]
    split_ifs at hr' ⊢
    · cases hr'
      exact hfor
    · exact h.present x r' hr'
  · intro x u hu
    rw [hm.task, Table.lookup_insert_of] at hu
    split_ifs at hu
    · cases hu
      exact ⟨hct ▸ (h.plain id t ht).1, hplain⟩
    · exact h.plain x u hu
  · intro ct status
    rw [hm.task, Table.sumBy_insert, Table.weightAt_some ht, hm.counter, h.count]
    unfold tally
    rw [hct]
    simp only [eq_comm]

theorem Store.normal_patch {db : Store} {aid : String} {r : VRow} {col : JsonCol}
    (h : ∀ id r, db.vertex.lookup id = some r → r.doc.val.norm = r.doc.val) (hcol : col.val.norm = col.val) :
    ∀ id r', (db.patchVertex aid r col).vertex.lookup id = some r' → r'.doc.val.norm = r'.doc.val := by
  intro id r' hr'
  unfold Store.patchVertex at hr'
  rw [Table.lookup_insert_of] at hr'
  split_ifs at hr'
  · cases hr'
    exact hcol
  · exact h id r' hr'

end Mantle
