import Mantle.Db.Place

/-!
# Mantle.Db.Keeps — invariants of a whole store, through its operations

`Keeps I m n`: an invariant that holds when `m` starts holds when it returns, and also when it raises outside a
transaction.  The rules follow the code down to a few pure obligations.
-/

namespace Mantle

open Tx

variable {ct : Val} {fields : Doc} {id : String} {key : EdgeKey} {next : TaskRow → TaskRow}
  {seq : ℤ} {t : TaskRow} {γ : Type}

variable {d doc : Doc} {leaves : ℕ+} {new old origin : String} {stampRev : Bool}

variable {α β : Type} {I : Store → Prop}

/-- The invariant is kept if `m` returns, and also if it raises outside a transaction. -/
def Keeps (I : Store → Prop) (m : DbM α) (n : Node) : Prop :=
  I n.db → Runs m n (fun _ n' => I n'.db ∧ n'.inTxn = n.inTxn)
    fun n' => n'.inTxn = n.inTxn ∧ (n.inTxn = false → I n'.db)

/-- The invariant does not read the sequence counters. -/
def SeqFree (I : Store → Prop) : Prop := ∀ db t, I db → I { db with seqCounter := t }

/-! ### Rules for the statement forms -/

theorem keeps_pure (a : α) (n : Node) : Keeps I (pure a) n := fun h => runs_pure ⟨h, rfl⟩

theorem keeps_throw (e : PyErr) (n : Node) : Keeps I (throw e : DbM α) n :=
  fun h => runs_throw ⟨rfl, fun _ => h⟩

/-- Sequencing; `P` is what else is known where the second statement starts. -/
theorem keeps_bind_of {P : α → Node → Prop} {m : DbM α} {f : α → DbM β} {n : Node}
    (h : Keeps I m n) (hP : Runs m n P fun _ => True)
    (hf : ∀ a n', P a n' → I n'.db → n'.inTxn = n.inTxn → Keeps I (f a) n') :
    Keeps I (m >>= f) n := by
  intro hn
  refine runs_bind (((h hn).and hP).mono ?_ fun _ he => he.1)
  rintro a n' ⟨⟨hI, ht⟩, hp⟩
  refine (hf a n' hp hI ht hI).mono ?_ ?_
  · rintro b n'' ⟨hI', ht'⟩
    exact ⟨hI', ht'.trans ht⟩
  · rintro n'' ⟨ht', hI'⟩
    exact ⟨ht'.trans ht, fun hn' => hI' (ht.trans hn')⟩

theorem keeps_bind {m : DbM α} {f : α → DbM β} {n : Node} (h : Keeps I m n)
    (hf : ∀ a n', I n'.db → n'.inTxn = n.inTxn → Keeps I (f a) n') : Keeps I (m >>= f) n := by
  refine keeps_bind_of (P := fun _ _ => True) h ?_ fun a n' _ => hf a n'
  unfold Runs
  split <;> trivial

theorem keeps_get {g : Node → DbM β} {n : Node} (h : Keeps I (g n) n) : Keeps I (get >>= g) n := h

theorem keeps_read {f : Store → α} {g : α → DbM β} {n : Node} (h : Keeps I (g (f n.db)) n) :
    Keeps I (readDb f >>= g) n := h

theorem keeps_ofExcept {x : Except PyErr α} {g : α → DbM β} {n : Node}
    (h : ∀ a, x = .ok a → Keeps I (g a) n) : Keeps I (Tx.ofExcept x >>= g) n := by
  cases x with
  | error e => exact keeps_throw e n
  | ok a => exact h a rfl

theorem keeps_onDb {f : Store → Store} {n : Node} (h : I n.db → I (f n.db)) :
    Keeps I (onDb f) n := fun hn => runs_modify ⟨h hn, rfl⟩

theorem keeps_modify {f : Node → Node} {n : Node} (h : (f n).db = n.db) (ht : (f n).inTxn = n.inTxn) :
    Keeps I (modify f : DbM PUnit) n := fun hn => runs_modify ⟨h ▸ hn, ht⟩

theorem keeps_ite {c : Prop} [Decidable c] {m₁ m₂ : DbM α} {n : Node} (h₁ : c → Keeps I m₁ n)
    (h₂ : ¬c → Keeps I m₂ n) : Keeps I (if c then m₁ else m₂) n := by
  split_ifs with hc
  · exact h₁ hc
  · exact h₂ hc

theorem keeps_foldlM {f : β → γ → DbM β} :
    ∀ {xs : List γ} {b : β} {n : Node},
      (∀ x ∈ xs, ∀ b n', I n'.db → n'.inTxn = n.inTxn → Keeps I (f b x) n') →
      Keeps I (xs.foldlM f b) n
  | [], b, n, _ => keeps_pure b n
  | x :: xs, b, n, h => by
    rw [List.foldlM_cons]
    intro hn
    refine keeps_bind (h x (by simp) b n hn rfl) ?_ hn
    intro b' n' _ ht
    exact keeps_foldlM fun y hy b n'' hI ht' => h y (by simp [hy]) b n'' hI (ht'.trans ht)

theorem keeps_savepoint {m : DbM ℕ} {n : Node} (h : Keeps I m n) : Keeps I (savepoint m) n := by
  intro hn
  refine runs_bind (runs_attempt ((h hn).mono (fun _ _ h' => runs_pure h') ?_))
  rintro n' ⟨ht, -⟩
  exact runs_pure ⟨hn, ht⟩

theorem SeqFree.flushed (hI : SeqFree I) {n : Node} (h : I n.db) : I n.flushed.db := by
  unfold Node.flushed
  split
  · exact hI _ _ h
  · exact h

theorem keeps_write {body : DbM α} {n : Node} (hI : SeqFree I)
    (h : ∀ m : Node, m.db = n.db → m.inTxn = true → Keeps I body m) : Keeps I (write body) n := by
  intro hn
  unfold Runs
  by_cases hi : n.inTxn = true
  · rw [write_join hi]
    exact h n rfl hi hn
  · rw [Bool.not_eq_true] at hi
    have hb : Runs (do let a ← body; flush; pure a : DbM α) n.begin (fun _ n' => I n'.db)
        fun _ => True := by
      refine runs_bind ((h n.begin rfl rfl hn).mono ?_ fun _ _ => trivial)
      rintro a m ⟨hm, -⟩
      refine runs_bind ((flush_runs m).mono ?_ fun _ _ => trivial)
      rintro - m' ⟨rfl, -⟩
      exact runs_pure (hI.flushed hm)
    rw [write_own hi]
    cases hr : (do let a ← body; flush; pure a : DbM α) n.begin with
    | ok a n' =>
      have hq := hb.ok hr
      exact ⟨hq, hi.symm⟩
    | error e n' => exact ⟨hi.symm, fun _ => hn⟩

theorem keeps_bulk {batch : ℕ} {one : γ → DbM ℕ} {xs : List γ} {n : Node} (hI : SeqFree I)
    (h : ∀ x ∈ xs, ∀ m, I m.db → m.inTxn = true → Keeps I (one x) m) :
    Keeps I (bulk batch one xs) n := by
  refine keeps_foldlM ?_
  intro chunk hchunk handled n' _ _
  refine keeps_bind (keeps_write hI ?_) fun k n'' _ _ => keeps_pure _ n''
  intro m _ hm
  refine keeps_foldlM ?_
  intro x hx k m' hm' ht
  have hx' : x ∈ xs := by
    rcases mem_chunked hchunk x hx with h' | h'
    · simp at h'
    · exact h'
  exact keeps_bind (keeps_savepoint (h x hx' m' hm' (ht.trans hm))) fun _ m'' _ _ => keeps_pure _ m''

theorem keeps_inside {m : DbM α} {n : Node} (hi : n.inTxn = true)
    (h : I n.db → Runs m n (fun _ n' => I n'.db ∧ n'.inTxn = n.inTxn) fun n' => n'.inTxn = n.inTxn) :
    Keeps I m n := by
  intro hn
  refine (h hn).mono (fun _ _ h' => h') ?_
  intro n' ht
  refine ⟨ht, fun hf => ?_⟩
  rw [hi] at hf
  cases hf

/-! ### The store after what follows a row, as pure functions -/

namespace Store

/-- Adjust several counters. -/
def bumps (db : Store) (deltas : List (String × ℤ)) : Store :=
  deltas.foldl (fun db e => db.bump e.1 e.2) db

/-- The counters with `old` replaced by `new`. -/
def recounted (db : Store) (old : Option Doc) (new : Doc) (oldCt newCt : Val) : Store :=
  (if old.isNone then db.bump cVertexTotal 1 else db).bumps
    (counterDeltas old (some new) oldCt newCt)

/-- The status counter without the task of `old`. -/
def uncounted (db : Store) (old : Option Doc) : Store :=
  match fieldText old "status", fieldText old "content_type" with
  | some status, some oldCt => db.bump (cTaskStatus oldCt status) (-1)
  | _, _ => db

def tasked (db : Store) (aid : String) : Option TaskRow → Store
  | some t => { db.bump (cTaskStatus t.ct t.status) 1 with task := db.task.insert aid t }
  | none => { db with task := db.task.erase aid }

end Store

def taskOf (new : Option Doc) (ct : Val) : Except PyErr (Option TaskRow) :=
  match new, fieldText new "status" with
  | some d, some status => if ct.truthy then (taskRow d ct.pyStr status).map some else .ok none
  | _, _ => .ok none

theorem taskOf_some (h : taskOf (some d) ct = .ok (some t)) :
    (d.get "status").truthy = true ∧ ct.truthy = true ∧
      taskRow d ct.pyStr (d.get "status").pyStr = .ok t := by
  unfold taskOf fieldText at h
  by_cases hs : (d.get "status").truthy = true
  · by_cases hct : ct.truthy = true
    · simp only [hs, hct, if_true] at h
      refine ⟨hs, hct, ?_⟩
      cases hr : taskRow d ct.pyStr (d.get "status").pyStr with
      | error e =>
        rw [hr] at h
        cases h
      | ok t' =>
        rw [hr] at h
        cases h
        rfl
    · simp [hs, hct] at h
  · simp [hs] at h

theorem taskRow_ok {ct status : String} (h : taskRow d ct status = .ok t) :
    t.ct = ct ∧ t.status = status ∧ pyInt ((d.get "priority").orElse (.int 0)) = .ok t.priority ∧
      bindText (d.get "operator") = .ok t.operator ∧ bindText (d.get "task_key") = .ok t.taskKey ∧
      bindText (d.get "claimed_by") = .ok t.claimedBy ∧
      bindText (d.get "claimed_at") = .ok t.claimedAt ∧
      bindText (d.get "next_retry_at") = .ok t.nextRetryAt ∧
      bindText (d.get "completed_at") = .ok t.completedAt := by
  obtain ⟨p, hp, h⟩ := bind_ok h
  obtain ⟨p', hp', h⟩ := bind_ok h
  obtain ⟨op, hop, h⟩ := bind_ok h
  obtain ⟨tk, htk, h⟩ := bind_ok h
  obtain ⟨cb, hcb, h⟩ := bind_ok h
  obtain ⟨ca, hca, h⟩ := bind_ok h
  obtain ⟨nr, hnr, h⟩ := bind_ok h
  obtain ⟨co, hco, h⟩ := bind_ok h
  cases h
  have := bindInt_ok hp'
  subst this
  exact ⟨rfl, rfl, hp, hop, htk, hcb, hca, hnr, hco⟩

theorem recount_runs (old : Option Doc) (new : Doc) (oldCt newCt : Val) (n : Node)
    (E : Node → Prop) : Runs (recount old new oldCt newCt) n
      (fun _ n' => n' = { n with db := n.db.recounted old new oldCt newCt }) E := by
  unfold recount countNew Store.recounted
  cases old with
  | none => exact runs_bind (runs_modify (runs_modify rfl))
  | some d => exact runs_bind (runs_pure (runs_modify rfl))

/-- **`_sync_task`**: the old task leaves its counter, the new one is stored and counted. -/
theorem syncTask_runs (aid : String) (old new : Option Doc) (ct : Val) (n : Node) :
    Runs (syncTask aid old new ct) n
      (fun _ n' => ∃ t, taskOf new ct = .ok t ∧
        n' = { n with db := (n.db.uncounted old).tasked aid t }) fun n' => n'.inTxn = n.inTxn := by
  have huncount : ∀ E, Runs (uncountTask old) n (fun _ n' => n' = { n with db := n.db.uncounted old }) E := by
    intro E
    unfold uncountTask Store.uncounted
    cases fieldText old "status" with
    | none => exact runs_pure rfl
    | some status =>
      cases fieldText old "content_type" with
      | none => exact runs_pure rfl
      | some oldCt => exact runs_modify rfl
  refine runs_bind ((huncount _).imp ?_)
  rintro - n₁ rfl
  unfold storeTask taskOf
  cases new with
  | none => exact runs_modify ⟨none, rfl, rfl⟩
  | some d =>
    cases fieldText (some d) "status" with
    | none => exact runs_modify ⟨none, rfl, rfl⟩
    | some status =>
      dsimp only
      refine runs_ite ?_ ?_
      · intro hct
        refine runs_bind (runs_modify (runs_bind (runs_ofExcept ?_ rfl)))
        intro row hrow
        obtain ⟨hc, hs, -⟩ := taskRow_ok hrow
        refine runs_modify ⟨some row, ?_, ?_⟩
        · rw [if_pos hct, hrow]
          rfl
        · simp only [Store.tasked, hc, hs]
          rfl
      · intro hct
        exact runs_modify ⟨none, if_neg hct, rfl⟩

/-- The row of a document with everything that is kept beside it, short of its placement. -/
def Store.rowStored (db : Store) (aid : String) (d : Doc) (row : VRow) (seq : Val)
    (t : Option TaskRow) : Store :=
  let prev := db.vertex.lookup aid
  let oldDoc := prev.map fun p => p.doc.val
  let oldCt := match prev with
    | none => Val.none
    | some p => p.ct
  (((db.acceptVertex aid (upsertVertex prev row) seq).recounted oldDoc d oldCt
    (d.get "content_type")).uncounted oldDoc).tasked aid t

namespace Store

/-- The tables other than the counters and the digests. -/
structure SameRows (db db' : Store) : Prop where
  vertex : db'.vertex = db.vertex
  edge : db'.edge = db.edge
  task : db'.task = db.task

theorem SameRows.refl (db : Store) : SameRows db db := ⟨rfl, rfl, rfl⟩

theorem SameRows.trans {a b c : Store} (h : SameRows a b) (h' : SameRows b c) : SameRows a c :=
  ⟨h'.vertex.trans h.vertex, h'.edge.trans h.edge, h'.task.trans h.task⟩

theorem bumps_sameRows : ∀ (deltas : List (String × ℤ)) (db : Store), SameRows db (db.bumps deltas)
  | [], db => SameRows.refl db
  | e :: deltas, db => by
    have h : SameRows db (db.bump e.1 e.2) := ⟨rfl, rfl, rfl⟩
    exact h.trans (bumps_sameRows deltas (db.bump e.1 e.2))

theorem recounted_sameRows (db : Store) (old : Option Doc) (new : Doc) (oldCt newCt : Val) :
    SameRows db (db.recounted old new oldCt newCt) := by
  unfold recounted
  cases old with
  | none =>
    have h : SameRows db (db.bump cVertexTotal 1) := ⟨rfl, rfl, rfl⟩
    exact h.trans (bumps_sameRows _ (db.bump cVertexTotal 1))
  | some d => exact bumps_sameRows _ db

theorem uncounted_sameRows (db : Store) (old : Option Doc) : SameRows db (db.uncounted old) := by
  unfold uncounted
  split
  · exact ⟨rfl, rfl, rfl⟩
  · exact SameRows.refl db

def setTask (tasks : Table String TaskRow) (aid : String) : Option TaskRow → Table String TaskRow
  | some t => tasks.insert aid t
  | none => tasks.erase aid

theorem lookup_setTask {tasks : Table String TaskRow} {aid id : String} {t : Option TaskRow} :
    (setTask tasks aid t).lookup id = if id = aid then t else tasks.lookup id := by
  cases t with
  | some t => exact Table.lookup_insert_of
  | none => exact Table.lookup_erase_of

theorem tasked_rows (db : Store) (aid : String) (t : Option TaskRow) :
    (db.tasked aid t).vertex = db.vertex ∧ (db.tasked aid t).edge = db.edge ∧
      (db.tasked aid t).task = setTask db.task aid t := by
  cases t <;> exact ⟨rfl, rfl, rfl⟩

theorem rowStored_rows (db : Store) (aid : String) (d : Doc) (row : VRow) (seq : Val)
    (t : Option TaskRow) :
    (db.rowStored aid d row seq t).vertex =
        db.vertex.insert aid (upsertVertex (db.vertex.lookup aid) row) ∧
      (db.rowStored aid d row seq t).edge = db.edge ∧
      (db.rowStored aid d row seq t).task = setTask db.task aid t := by
  unfold rowStored
  obtain ⟨hv, he, ht⟩ := tasked_rows _ aid t
  have h₁ := recounted_sameRows (db.acceptVertex aid (upsertVertex (db.vertex.lookup aid) row) seq)
    ((db.vertex.lookup aid).map fun p => p.doc.val) d
    (match db.vertex.lookup aid with
      | none => Val.none
      | some p => p.ct) (d.get "content_type")
  have h := h₁.trans (uncounted_sameRows _ ((db.vertex.lookup aid).map fun p => p.doc.val))
  have hacc := acceptVertex_tables db aid (upsertVertex (db.vertex.lookup aid) row) seq
  have htask : (db.acceptVertex aid (upsertVertex (db.vertex.lookup aid) row) seq).task = db.task := by
    unfold acceptVertex
    split <;> rfl
  exact ⟨hv.trans (h.vertex.trans hacc.1), he.trans (h.edge.trans hacc.2),
    ht.trans (by rw [h.task, htask])⟩

end Store

/-! ### Edges -/

def EdgeNamed (key : EdgeKey) (e : EdgeSpec) (origin : String) : Prop :=
  key = edgeKey e.src e.dst e.label ∧ origin ≠ ""

structure EdgeRules (I : Store → Prop) : Prop where
  seq : SeqFree I
  conflict : ∀ db, I db → I (db.bump cUnordered 1) ∧ I (db.bump cUnorderedEdge 1)
  accept : ∀ db key e origin seq leaf row h, EdgeNamed key e origin →
    edgeRow e origin seq leaf = .ok row → I db →
    I (db.acceptEdge key e.label (upsertEdge (db.edge.lookup key) row) h)
  retire : ∀ db key leaf r, db.edge.lookup key = some r → I db →
    I (db.retireEdge key r.label leaf r)

theorem incomingVersion_named {o s : Val} (h : incomingVersion o s = some (origin, seq)) :
    origin ≠ "" := by
  unfold incomingVersion at h
  split at h
  · split_ifs at h with ho
    cases h
    exact ho
  · cases h

section Edges

variable (hI : EdgeRules I)
include hI

theorem keeps_writeEdge {leaf : ℕ} {e : EdgeSpec} {old : Option ERow} {n : Node} (hold : n.db.edge.lookup key = old)
    (ho : EdgeNamed key e origin) (hi : n.inTxn = true) :
    Keeps I (writeEdge key leaf e old origin seq) n := by
  refine keeps_inside hi fun hn => (writeEdge_runs hold).mono ?_ fun _ he => he.inTxn
  rintro - n' ⟨row, h, hrow, -, rfl⟩
  subst hold
  exact ⟨hI.accept _ _ _ _ _ _ _ _ ho hrow hn, rfl⟩

theorem keeps_observeSeq (origin : String) (seq : ℤ) (n : Node) : Keeps I (observeSeq origin seq) n :=
  keeps_ofExcept fun _ _ => keeps_onDb fun hn => hI.seq _ _ hn

theorem keeps_addOne (leaves : ℕ+) (arg : EdgeArg) (stampRev : Bool) {n : Node}
    (hi : n.inTxn = true) : Keeps I (addOne leaves arg stampRev) n := by
  unfold addOne
  refine keeps_ofExcept ?_
  intro e _
  refine keeps_read ?_
  cases stampRev with
  | true =>
    refine keeps_get ?_
    intro hn
    refine runs_bind ((allocate_runs n _).imp ?_)
    rintro seq n₁ ⟨-, rfl⟩
    exact keeps_bind (keeps_writeEdge hI rfl ⟨rfl, n.origin.2⟩ hi) (fun _ n' _ _ => keeps_pure 1 n') hn
  | false =>
    simp only [Bool.false_eq_true, if_false]
    cases hv : incomingVersion (e.props.get "_origin") (e.props.get "_seq") with
    | none => exact keeps_throw _ n
    | some v =>
      obtain ⟨origin, seq⟩ := v
      refine keeps_bind_of (keeps_observeSeq hI origin seq n) (quiet_observeSeq origin seq n) ?_
      intro _ n₁ h₁ _ ht₁
      have hwrite : Keeps I (do
          writeEdge (edgeKey e.src e.dst e.label)
            (leafOf (keyHex (edgeKey e.src e.dst e.label)) leaves) e
            (n.db.edge.lookup (edgeKey e.src e.dst e.label)) origin seq
          pure 1 : DbM ℕ) n₁ := by
        refine keeps_bind (keeps_writeEdge hI ?_ ⟨rfl, incomingVersion_named hv⟩ (ht₁.trans hi))
          fun _ n' _ _ => keeps_pure 1 n'
        rw [h₁.tables.edge]
      cases hold : n.db.edge.lookup (edgeKey e.src e.dst e.label) with
      | none => rwa [hold] at hwrite
      | some o =>
        rw [hold] at hwrite
        dsimp only
        cases compareVersion (.str origin) (.int seq) o.origin o.seq with
        | newer => exact hwrite
        | unordered =>
          exact keeps_bind (keeps_onDb fun h => (hI.conflict _ h).2) fun _ n' _ _ => keeps_pure 1 n'
        | older => exact keeps_pure 1 n₁
        | same => exact keeps_pure 1 n₁

theorem keeps_addEdges (edges : List EdgeArg) (batch : ℕ) (stampRev : Bool) (n : Node) :
    Keeps I (addEdges edges batch stampRev) n :=
  keeps_get (keeps_bulk hI.seq fun _ _ _ _ hi => keeps_addOne hI _ _ _ hi)

theorem keeps_place (doc : Doc) {n : Node} (hi : n.inTxn = true) : Keeps I (place doc) n := by
  unfold place
  cases placement doc with
  | none => exact keeps_pure _ n
  | some p =>
    refine keeps_get ?_
    cases n.db.vertex.lookup p.1 with
    | none => exact keeps_modify rfl rfl
    | some r =>
      refine keeps_bind (keeps_modify rfl rfl) ?_
      intro _ n₁ _ ht₁
      exact keeps_bind (keeps_addOne hI _ _ _ (ht₁.trans hi)) fun _ n₂ _ _ => keeps_pure _ n₂

omit hI in
theorem retireEdgeRow_store {leaves : ℕ+} {key : EdgeKey} {label : String} {r : ERow} {n : Node}
    (hr : ∀ r', n.db.edge.lookup key = some r' → r' = r) :
    Runs (retireEdgeRow leaves key label r) n
      (fun _ n' => n' = n ∧ n.db.edge.lookup key = none ∨ n.db.edge.lookup key = some r ∧
        n' = { n with db := n.db.retireEdge key label (leafOf (keyHex key) leaves) r })
      fun n' => n'.inTxn = n.inTxn := by
  unfold retireEdgeRow
  refine runs_read ?_
  cases hk : n.db.edge.lookup key with
  | none => exact runs_pure (.inl ⟨rfl, rfl⟩)
  | some r' =>
    obtain rfl := hr r' hk
    refine runs_bind (runs_modify ?_)
    refine runs_bind ((xorEdge_runs key _ _ _).mono ?_ fun n' he => he.inTxn)
    rintro - n' ⟨h, hh, rfl⟩
    refine runs_bind (runs_modify (runs_bind (runs_modify (runs_pure (.inr ⟨rfl, ?_⟩)))))
    rw [Store.retireEdge, contentHash_of_ok hh]

omit hI in
theorem keeps_deleteEdge (hseq : SeqFree I) (src dst label : String) {n : Node}
    (h : ∀ leaf r, n.db.edge.lookup (edgeKey src dst label) = some r → I n.db →
      I (n.db.retireEdge (edgeKey src dst label) label leaf r)) :
    Keeps I (deleteEdge src dst label) n := by
  refine keeps_get (keeps_write hseq ?_)
  intro m hm hi
  refine keeps_read ?_
  rw [← hm] at h
  cases hk : m.db.edge.lookup (edgeKey src dst label) with
  | none => exact keeps_pure _ m
  | some r =>
    refine keeps_inside hi fun hn => (retireEdgeRow_store ?_).mono ?_ fun _ ht => ht
    · intro r' hr'
      rw [hk] at hr'
      exact (Option.some.inj hr').symm
    · rintro b n' (⟨rfl, -⟩ | ⟨hr, rfl⟩)
      · exact ⟨hn, rfl⟩
      · exact ⟨h _ r hr hn, rfl⟩

theorem keeps_retireRows :
    ∀ (rows : List (EdgeKey × ERow)) (gone : ℕ) (n : Node), n.inTxn = true →
      (rows.map Prod.fst).Nodup → (∀ e ∈ rows, n.db.edge.lookup e.1 = some e.2) →
      Keeps I (rows.foldlM (fun gone r => do
        let b ← retireEdgeRow leaves r.1 r.2.label r.2
        pure (if b then gone + 1 else gone)) gone : DbM ℕ) n
  | [], _, n, _, _, _ => keeps_pure _ n
  | e :: rows, gone, n, hi, hnd, hrows => by
    rw [List.foldlM_cons]
    rw [List.map_cons, List.nodup_cons] at hnd
    have hhead := hrows e (by simp)
    have hruns := @retireEdgeRow_store leaves e.1 e.2.label e.2 n ?_
    · refine keeps_bind_of (P := fun _ n' => ∀ k, k ≠ e.1 → n'.db.edge.lookup k = n.db.edge.lookup k)
        (keeps_bind (keeps_inside hi fun hn => hruns.mono ?_ fun _ ht => ht)
          fun _ n' _ _ => keeps_pure _ n') (runs_bind (hruns.mono ?_ fun _ _ => trivial)) ?_
      · rintro b n' (⟨rfl, -⟩ | ⟨hr, rfl⟩)
        · exact ⟨hn, rfl⟩
        · exact ⟨hI.retire _ _ _ _ hr hn, rfl⟩
      · rintro b n' (⟨rfl, -⟩ | ⟨-, rfl⟩)
        · exact runs_pure fun _ _ => rfl
        · exact runs_pure fun k hk => AList.lookup_erase_ne hk
      · intro gone' n' hframe _ ht
        refine keeps_retireRows rows gone' n' (ht.trans hi) hnd.2 ?_
        intro e' he'
        rw [hframe e'.1 ?_]
        · exact hrows e' (by simp [he'])
        · intro heq
          exact hnd.1 (heq ▸ List.mem_map_of_mem he')
    · intro r' hr'
      rw [hhead] at hr'
      exact (Option.some.inj hr').symm

theorem keeps_retireEdgesTouching {node : String} {n : Node} (hi : n.inTxn = true) :
    Keeps I (retireEdgesTouching leaves node) n := by
  refine keeps_read (keeps_retireRows hI _ 0 n hi ?_ ?_)
  · exact n.db.edge.filter_keys _
  · intro e he
    exact Table.mem_toPairs.mp (List.mem_of_mem_filter he)

theorem keeps_deleteEdgesTouching (node : String) (n : Node) :
    Keeps I (deleteEdgesTouching node) n :=
  keeps_get (keeps_write hI.seq fun _ _ hi => keeps_retireEdgesTouching hI hi)

end Edges

/-! ### Rows -/

/-- A document is written by an origin with a name, under a number of its own or the document's. -/
def Versioned (doc : Doc) (origin : String) (seq : Val) : Prop :=
  origin ≠ "" ∧ ((∃ k, seq = .int k) ∨ seq = doc.get "_seq")

/-- What an invariant owes to the write path, for documents that are `ok`. -/
structure RowRules (I : Store → Prop) (ok : Doc → Prop) : Prop extends EdgeRules I where
  row : ∀ db aid doc origin seq s leaf row t, ok doc → Versioned doc origin seq → docId doc = .ok aid →
    seq.asInt = some s →
    vertexRow (stampedDoc doc origin seq (db.vertex.lookup aid)) origin s leaf = .ok row →
    taskOf (some (stampedDoc doc origin seq (db.vertex.lookup aid)))
      ((stampedDoc doc origin seq (db.vertex.lookup aid)).get "content_type") = .ok t →
    I db → I (db.rowStored aid (stampedDoc doc origin seq (db.vertex.lookup aid)) row seq t)
  reparent : ∀ doc v, ok doc → ok (doc.set "parent_id" v)

section Rows

variable {ok : Doc → Prop} (hI : RowRules I ok)
include hI

theorem keeps_writeRow {seq : Val} {n : Node} (hok : ok doc) (ho : Versioned doc origin seq)
    (hi : n.inTxn = true) : Keeps I (writeRow doc origin seq) n := by
  unfold writeRow followRow
  refine keeps_ofExcept ?_
  intro aid haid
  refine keeps_get (keeps_inside hi fun hn => ?_)
  refine runs_bind ((writeVertex_runs rfl).mono ?_ fun _ he => he.inTxn)
  rintro - n₁ ⟨s, row, hs, hrow, rfl⟩
  refine runs_bind ((recount_runs _ _ _ _ _ _).imp ?_)
  rintro - n₂ rfl
  refine runs_bind ((syncTask_runs _ _ _ _ _).imp ?_)
  rintro - n₃ ⟨t, ht, rfl⟩
  have hstored := hI.row n.db aid doc origin seq s _ row t hok ho haid hs hrow ht hn
  have hplace : ∀ m : Node, m.inTxn = n.inTxn → Keeps I (do
      place (stampedDoc doc origin seq (n.db.vertex.lookup aid))
      pure (stampedDoc doc origin seq (n.db.vertex.lookup aid))) m := by
    intro m hm
    exact keeps_bind (keeps_place hI.toEdgeRules _ (hm.trans hi)) fun _ n' _ _ => keeps_pure _ n'
  exact (hplace { n with db := n.db.rowStored aid _ row seq t } rfl hstored).mono (fun _ _ h => h)
    fun _ h => h.1

theorem keeps_observeIncoming (origin : String) (seq : Val) (n : Node) :
    Keeps I (observeIncoming origin seq) n := by
  unfold observeIncoming
  split
  · exact keeps_pure _ n
  · exact keeps_observeSeq hI.toEdgeRules _ _ n

theorem keeps_observeConsumed (stampRev : Bool) (v : String × Val) (n : Node) :
    Keeps I (observeConsumed stampRev v) n :=
  keeps_ite (fun _ => keeps_pure _ n) fun _ => keeps_observeIncoming hI _ _ n

omit hI in
theorem versionFor_store (doc : Doc) (stampRev : Bool) (n : Node) :
    Runs (versionFor doc stampRev) n
      (fun v n' => Versioned doc v.1 v.2 ∧ n'.db = n.db ∧ n'.inTxn = n.inTxn) fun n' => n' = n := by
  cases stampRev with
  | true => exact ⟨⟨n.origin.2, .inl ⟨_, rfl⟩⟩, rfl, rfl⟩
  | false =>
    unfold versionFor
    simp only [Bool.false_eq_true, if_false]
    cases hv : incomingVersion (doc.get "_origin") (doc.get "_seq") with
    | none => exact runs_throw rfl
    | some v => exact runs_pure ⟨⟨incomingVersion_named hv, .inr rfl⟩, rfl, rfl⟩

omit hI in
theorem keeps_versionFor {f : String × Val → DbM β} {n : Node}
    (h : ∀ v n', Versioned doc v.1 v.2 → n'.db = n.db → n'.inTxn = n.inTxn → Keeps I (f v) n') :
    Keeps I (versionFor doc stampRev >>= f) n := by
  refine keeps_bind_of (P := fun v n' => Versioned doc v.1 v.2 ∧ n'.db = n.db ∧ n'.inTxn = n.inTxn) ?_
    ((versionFor_store doc stampRev n).mono (fun _ _ h => h) fun _ _ => trivial) ?_
  · intro hn
    refine (versionFor_store doc stampRev n).mono ?_ ?_
    · rintro v n' ⟨-, hdb, ht⟩
      exact ⟨hdb ▸ hn, ht⟩
    · rintro n' rfl
      exact ⟨rfl, fun _ => hn⟩
  · rintro v n' ⟨hv, hdb, ht⟩ _ _
    exact h v n' hv hdb ht

theorem keeps_snapshotPrior {aid : String} {prev : VRow} {n : Node}
    (hok : ∀ d ∈ snapshotRows n.db aid prev, ok d) (hi : n.inTxn = true) :
    Keeps I (snapshotPrior aid prev) n := by
  unfold snapshotPrior
  refine keeps_ite (fun _ => keeps_pure _ n) fun h1 => ?_
  refine keeps_ite (fun _ => keeps_pure _ n) fun h2 => keeps_read ?_
  refine keeps_ite (fun _ => keeps_pure _ n) fun h3 => ?_
  have hdoc : ok (snapshotDoc aid prev) := by
    refine hok _ ?_
    unfold snapshotRows
    rw [if_neg (by simp [h1, h2, h3])]
    simp
  refine keeps_versionFor ?_
  intro v n₁ hv hdb ht
  exact keeps_bind (keeps_writeRow hI hdoc hv (ht.trans hi)) fun _ n₂ _ _ => keeps_pure _ n₂

theorem keeps_putArtifact {newVersion : Bool} {n : Node}
    (hok : ∀ d ∈ putRows n.db doc stampRev newVersion, ok d) :
    Keeps I (putArtifact doc stampRev newVersion) n := by
  unfold putArtifact
  refine keeps_ite (fun _ => keeps_throw _ n) fun _ => keeps_write hI.seq ?_
  intro m hm hi
  rw [← hm] at hok
  have hdoc : ok doc := hok doc (by simp [putRows])
  refine keeps_bind_of (P := fun d _ => Reparented doc d) ?_
    ((withSnapshot_rows doc stampRev newVersion m).mono (fun _ _ h => h.1) fun _ h => h) ?_
  · unfold withSnapshot
    refine keeps_ite ?_ fun _ => keeps_pure _ m
    intro hc
    refine keeps_ofExcept ?_
    intro aid haid
    refine keeps_read ?_
    cases hp : m.db.vertex.lookup aid with
    | none => exact keeps_pure _ m
    | some p =>
      refine keeps_ite ?_ fun _ => keeps_pure _ m
      intro hcut
      refine keeps_bind (keeps_snapshotPrior hI ?_ hi) ?_
      · intro d hd
        refine hok d ?_
        have hcut' : cutsVersion doc newVersion p = true := hcut
        unfold putRows
        rw [if_pos hc, docId_ok haid]
        simp [hp, hcut', hd]
      · intro snap m' _ _
        cases snap with
        | some s => exact keeps_pure _ m'
        | none => exact keeps_pure _ m'
  · intro d m₁ hd _ ht₁
    have hokd : ok d := by
      rcases hd with rfl | ⟨v, rfl⟩
      · exact hdoc
      · exact hI.reparent doc v hdoc
    refine keeps_versionFor ?_
    intro v m₂ hv _ ht₂
    refine keeps_bind (keeps_observeConsumed hI stampRev v m₂) ?_
    intro _ m₃ _ ht₃
    exact keeps_writeRow hI hokd hv (ht₃.trans (ht₂.trans (ht₁.trans hi)))

omit hI in
theorem keeps_lww (id : Val) (origin : String) (seq : Val) (n : Node) :
    Keeps I (lww id origin seq) n := by
  unfold lww rowById
  refine keeps_bind (keeps_ofExcept ?_) ?_
  · intro c _
    cases c with
    | str x => exact fun hn => runs_bind (runs_get (runs_pure ⟨hn, rfl⟩))
    | _ => exact keeps_pure _ n
  · intro row n' _ _
    cases row with
    | none => exact keeps_pure _ n'
    | some r => exact keeps_pure _ n'

theorem keeps_putWritten {v : String × Val} {n : Node} (hok : ok doc) (hv : Versioned doc v.1 v.2)
    (hi : n.inTxn = true) : Keeps I (putWritten doc v) n :=
  keeps_bind (keeps_writeRow hI hok hv hi) fun _ n' _ _ => keeps_pure _ n'

theorem keeps_putOne {onUnordered : OnUnordered} {n : Node} (hok : ok doc) (hi : n.inTxn = true) :
    Keeps I (putOne stampRev onUnordered doc) n := by
  unfold putOne
  refine keeps_ite (fun _ => keeps_throw _ n) fun _ => keeps_versionFor ?_
  intro v n₁ hv _ ht₁
  refine keeps_ite (fun _ => keeps_putWritten hI hok hv (ht₁.trans hi)) fun _ => ?_
  refine keeps_bind (keeps_observeIncoming hI _ _ n₁) ?_
  intro _ n₂ _ ht₂
  refine keeps_bind (keeps_lww _ _ _ n₂) ?_
  intro verdict n₃ _ ht₃
  have hwrite : Keeps I (putWritten doc v) n₃ :=
    keeps_putWritten hI hok hv (ht₃.trans (ht₂.trans (ht₁.trans hi)))
  unfold putDecided
  cases verdict with
  | newer => exact hwrite
  | older => exact keeps_pure _ n₃
  | same => exact keeps_pure _ n₃
  | unordered =>
    cases onUnordered with
    | keepLocal =>
      exact keeps_bind (keeps_onDb fun h => (hI.conflict _ h).1) fun _ n' _ _ => keeps_pure _ n'
    | takeRemote => exact hwrite
    | error => exact keeps_throw _ n₃

theorem keeps_putMany {docs : List Doc} (batch : ℕ) (onUnordered : OnUnordered) {n : Node}
    (hok : ∀ d ∈ docs, ok d) : Keeps I (putMany docs batch stampRev onUnordered) n :=
  keeps_bulk hI.seq fun d hd _ _ hi => keeps_putOne hI (hok d hd) hi

end Rows

/-! ### Deleting -/

def Store.rowDeleted (db : Store) (aid : String) (r : VRow) (accounted : Bool) : Store :=
  ((((db.eraseVertex aid).settleVertex aid r accounted).bumps
    (counterDeltas (some r.doc.val) none r.ct .none)).uncounted (some r.doc.val)).tasked aid none

theorem Store.rowDeleted_rows (db : Store) (aid : String) (r : VRow) (accounted : Bool) :
    (db.rowDeleted aid r accounted).vertex = db.vertex.erase aid ∧
      (db.rowDeleted aid r accounted).edge = db.edge ∧
      (db.rowDeleted aid r accounted).task = db.task.erase aid := by
  unfold Store.rowDeleted
  have h := (Store.bumps_sameRows (counterDeltas (some r.doc.val) none r.ct .none)
    ((db.eraseVertex aid).settleVertex aid r accounted)).trans
    (Store.uncounted_sameRows _ (some r.doc.val))
  have hs : Store.SameRows (db.eraseVertex aid) ((db.eraseVertex aid).settleVertex aid r accounted) := by
    cases accounted <;> exact ⟨rfl, rfl, rfl⟩
  obtain ⟨hv, he, ht⟩ := Store.tasked_rows (((((db.eraseVertex aid).settleVertex aid r accounted).bumps
    (counterDeltas (some r.doc.val) none r.ct .none)).uncounted (some r.doc.val))) aid none
  have h' := hs.trans h
  exact ⟨hv.trans h'.vertex, he.trans h'.edge, ht.trans (by rw [h'.task]; rfl)⟩

theorem EdgeRules.under (hI : EdgeRules I) (v₀ v : Table String VRow) :
    EdgeRules fun db => db.vertex = v ∧ I { db with vertex := v₀ } where
  seq := fun _ t h => ⟨h.1, hI.seq _ t h.2⟩
  conflict := fun _ h => ⟨⟨h.1, (hI.conflict _ h.2).1⟩, h.1, (hI.conflict _ h.2).2⟩
  accept := by
    intro db key e origin seq leaf row h ho hrow hdb
    refine ⟨(Store.acceptEdge_tables _ _ _ _ _).2.trans hdb.1, ?_⟩
    have := hI.accept _ key e origin seq leaf row h ho hrow hdb.2
    unfold Store.acceptEdge at this ⊢
    cases hk : db.edge.lookup key with
    | none =>
      simp only [hk] at this ⊢
      exact this
    | some o =>
      simp only [hk] at this ⊢
      exact this
  retire := fun db key leaf r hr h =>
    ⟨h.1, hI.retire { db with vertex := v₀ } key leaf r hr h.2⟩

theorem keeps_deleteArtifact (hI : EdgeRules I) (aid : String) (accounted : Bool) {n : Node}
    (h : ∀ db r, db.vertex = n.db.vertex → db.vertex.lookup aid = some r → I db →
      I (db.rowDeleted aid r accounted)) : Keeps I (deleteArtifact aid accounted) n := by
  refine keeps_get (keeps_write hI.seq ?_)
  intro m hm hi
  refine keeps_read ?_
  cases hr : m.db.vertex.lookup aid with
  | none => exact keeps_pure _ m
  | some r =>
    refine keeps_inside hi fun hn => runs_bind (runs_modify ?_)
    have hJ := hI.under m.db.vertex (m.db.vertex.erase aid)
    have hdrop : Keeps (fun db => db.vertex = m.db.vertex.erase aid ∧ I { db with vertex := m.db.vertex })
        (dropEdges n.leaves aid accounted) { m with db := m.db.eraseVertex aid } := by
      refine keeps_ite ?_ fun _ => keeps_pure _ _
      intro _
      refine keeps_bind (keeps_write hJ.seq ?_) fun _ n' _ _ => keeps_pure _ n'
      exact fun m' _ hi' => keeps_retireEdgesTouching hJ hi'
    refine runs_bind ((hdrop ⟨rfl, hn⟩).mono ?_ fun _ h => h.1)
    rintro - m₁ ⟨⟨hv, hI₁⟩, ht₁⟩
    refine runs_bind ((settleRow_runs aid r accounted m₁ _).imp ?_)
    rintro - m₂ rfl
    refine runs_bind (runs_modify ((syncTask_runs _ _ _ _ _).mono ?_ fun _ ht => ht.trans ht₁))
    rintro - m₃ ⟨t, htask, rfl⟩
    obtain rfl : t = none := (Except.ok.inj htask).symm
    have hdel := h { m₁.db with vertex := m.db.vertex } r (by rw [← hm]) hr hI₁
    have herase : ({ m₁.db with vertex := m.db.vertex } : Store).eraseVertex aid = m₁.db := by
      unfold Store.eraseVertex
      rw [← hv]
    rw [Store.rowDeleted, herase] at hdel
    exact ⟨hdel, ht₁⟩

/-! ### Relabelling -/

theorem keeps_relabelChunk
    (hpatch : ∀ (db : Store) (aid : String) (r : VRow) (col : JsonCol), I db →
      db.vertex.lookup aid = some r → (col.val = r.doc.val.set "state" (.str new) ∨
        col.val = (r.doc.val.set "state" (.str new)).norm) → I (db.patchVertex aid r col))
    (hstate : ∀ (db : Store) (i j : ℤ), I db → I (db.bumps [(cState old, i), (cState new, j)]))
    (hdeltas : ∀ (db : Store) (d d' : Option Doc) (ct ct' : Val), I db →
      I (db.bumps (counterDeltas d d' ct ct'))) (chunk : List String) {n : Node} :
    Keeps I (relabelChunk old new chunk) n := by
  refine keeps_ite (fun _ => ?_) fun _ => ?_
  · refine keeps_bind (keeps_foldlM fun aid _ k m hm _ => ?_) ?_
    · refine keeps_bind (keeps_read ?_) fun _ m' _ _ => keeps_pure _ m'
      cases hr : m.db.vertex.lookup aid with
      | none => exact keeps_pure _ m
      | some r =>
        refine keeps_ite (fun _ => ?_) fun _ => keeps_pure _ m
        exact keeps_bind (keeps_onDb fun h => hpatch _ _ _ _ h hr (.inl (jsonSet_val _ _ _)))
          fun _ m' _ _ => keeps_pure _ m'
    · intro k m _ _
      refine keeps_bind (keeps_onDb fun h => ?_) fun _ m' _ _ => keeps_pure _ m'
      exact hstate m.db (-(k : ℤ)) k h
  · refine keeps_foldlM fun aid _ k m hm _ => ?_
    refine keeps_bind (keeps_read ?_) fun _ m' _ _ => keeps_pure _ m'
    cases hr : m.db.vertex.lookup aid with
    | none => exact keeps_pure _ m
    | some r =>
      refine keeps_ite (fun _ => keeps_ofExcept fun col hcol => ?_) fun _ => keeps_pure _ m
      refine keeps_bind (keeps_onDb fun h => hpatch _ _ _ _ h hr (.inr (Doc.toCol_ok hcol)))
        fun _ m' _ _ => ?_
      exact keeps_bind (keeps_onDb fun h => hdeltas _ _ _ _ _ h) fun _ m'' _ _ => keeps_pure _ m''

theorem keeps_relabelLoop (hseq : SeqFree I)
    (hchunk : ∀ chunk (m : Node), m.inTxn = true → Keeps I (relabelChunk old new chunk) m) (batch : ℕ)
    (limit : Option ℕ) (exclude : Option String) :
    ∀ (fuel done batches : ℕ) (cursor : String) (n : Node),
      Keeps I (relabelLoop old new batch limit exclude fuel done batches cursor) n
  | 0, _, _, _, n => keeps_pure _ n
  | fuel + 1, done, batches, cursor, n => by
    unfold relabelLoop
    refine keeps_ite (fun _ => keeps_pure _ n) fun _ => keeps_read ?_
    split
    · exact keeps_pure _ n
    · refine keeps_bind (keeps_write hseq ?_) fun k n' _ _ =>
        keeps_relabelLoop hseq hchunk batch limit exclude fuel _ _ _ n'
      intro m _ hi
      refine keeps_foldlM fun chunk _ k m' _ ht => ?_
      exact keeps_bind (hchunk chunk m' (ht.trans hi)) fun _ m'' _ _ => keeps_pure _ m''

theorem keeps_relabelState (hseq : SeqFree I)
    (hchunk : old ∈ legacyLiveStates → new = stateLive → ∀ chunk (m : Node), m.inTxn = true →
      Keeps I (relabelChunk old new chunk) m) (batch : ℕ) (limit : Option ℕ) (exclude : Option String)
    (n : Node) : Keeps I (relabelState old new batch limit exclude) n := by
  refine keeps_ite (fun _ => keeps_throw _ n) fun h => keeps_read ?_
  rw [not_or, not_not, not_not] at h
  exact keeps_relabelLoop hseq (hchunk h.1 h.2) _ limit exclude _ _ _ _ n

/-! ### Task transitions -/

/-- A task row replaced, with the document and the counters in step. -/
structure TaskMoved (id : String) (t t' : TaskRow) (fields : Doc) (db db' : Store) : Prop where
  task : db'.task = db.task.insert id t'
  vertex : db.vertex.lookup id = none ∧ db'.vertex = db.vertex ∨
    ∃ r col, db.vertex.lookup id = some r ∧ (r.doc.val.update fields).toCol = .ok col ∧
      db'.vertex = db.vertex.insert id { r with doc := col }
  edge : db'.edge = db.edge
  counter : ∀ name, db'.counterOf name = db.counterOf name
    - (if name = cTaskStatus t.ct t.status then 1 else 0)
    + if name = cTaskStatus t.ct t'.status then 1 else 0

theorem patchDoc_runs (id : String) (fields : Doc) (n : Node) :
    Runs (patchDoc id fields) n (fun _ n' => ∃ db', n' = { n with db := db' } ∧
      db'.task = n.db.task ∧ db'.edge = n.db.edge ∧ db'.counter = n.db.counter ∧
      (n.db.vertex.lookup id = none ∧ db'.vertex = n.db.vertex ∨
        ∃ r col, n.db.vertex.lookup id = some r ∧ (r.doc.val.update fields).toCol = .ok col ∧
          db'.vertex = n.db.vertex.insert id { r with doc := col }))
      fun n' => n'.inTxn = n.inTxn := by
  unfold patchDoc
  refine runs_read ?_
  cases hr : n.db.vertex.lookup id with
  | none => exact runs_pure ⟨n.db, rfl, rfl, rfl, rfl, .inl ⟨rfl, rfl⟩⟩
  | some r =>
    refine runs_bind (runs_ofExcept ?_ rfl)
    intro col hcol
    exact runs_modify ⟨_, rfl, rfl, rfl, rfl, .inr ⟨r, col, rfl, hcol, rfl⟩⟩

theorem moveTask_runs (id : String) (t t' : TaskRow) (fields : Doc) (n : Node) :
    Runs (moveTask id t t' fields) n
      (fun _ n' => ∃ db', TaskMoved id t t' fields n.db db' ∧ n' = { n with db := db' })
      fun n' => n'.inTxn = n.inTxn := by
  unfold moveTask
  refine runs_bind (runs_modify (runs_bind ((patchDoc_runs id fields _).imp ?_)))
  rintro - n₁ ⟨db₁, rfl, htask, hedge, hcounter, hvertex⟩
  refine runs_modify ⟨(db₁.bump (cTaskStatus t.ct t.status) (-1)).bump (cTaskStatus t.ct t'.status) 1,
    ⟨htask, hvertex, hedge, ?_⟩, rfl⟩
  intro name
  rw [Store.counterOf_bump, Store.counterOf_bump, Store.counterOf_congr hcounter]
  have h0 : ∀ db : Store, ({ db with task := db.task.insert id t' } : Store).counterOf name =
      db.counterOf name := fun _ => rfl
  rw [h0]
  by_cases hn : name = cTaskStatus t.ct t.status
  · simp [hn, sub_eq_add_neg]
  · simp [hn]

theorem flush_clean {n : Node} (h : n.dirty = false) (E : Node → Prop) :
    Runs flush n (fun _ n' => n' = n) E := by
  unfold flush
  refine runs_bind (runs_get (runs_ite ?_ fun _ => runs_pure rfl))
  intro hd
  rw [h] at hd
  cases hd

/-- A transaction whose body only changes the store leaves exactly that store; `F` is what is known
when it raises. -/
theorem write_exact {body : DbM α} {n : Node} {P : α → Store → Prop} {F : Prop}
    (h : ∀ m : Node, m.db = n.db → m.leaves = n.leaves →
      Runs body m (fun a m' => ∃ db', P a db' ∧ m' = { m with db := db' })
        fun m' => m'.inTxn = m.inTxn ∧ F) :
    Runs (write body) n (fun a n' => P a n'.db ∧ n'.inTxn = n.inTxn)
      fun n' => n'.inTxn = n.inTxn ∧ (n.inTxn = false → n'.db = n.db) ∧ F := by
  unfold Runs
  by_cases hi : n.inTxn = true
  · rw [write_join hi]
    refine (h n rfl rfl).mono ?_ ?_
    · rintro a n' ⟨db', hP, rfl⟩
      exact ⟨hP, rfl⟩
    · rintro n' ⟨ht, hF⟩
      refine ⟨ht, fun hf => ?_, hF⟩
      rw [hi] at hf
      cases hf
  · rw [Bool.not_eq_true] at hi
    have hb : Runs (do let a ← body; flush; pure a : DbM α) n.begin (fun a n' => P a n'.db)
        fun _ => F := by
      refine runs_bind ((h n.begin rfl rfl).mono ?_ fun _ h => h.2)
      rintro a m ⟨db', hP, rfl⟩
      refine runs_bind ((flush_clean rfl _).imp ?_)
      rintro - m' rfl
      exact runs_pure hP
    rw [write_own hi]
    cases hr : (do let a ← body; flush; pure a : DbM α) n.begin with
    | ok a n' =>
      have hq := hb.ok hr
      exact ⟨hq, hi.symm⟩
    | error e n' =>
      have hq := hb.error hr
      exact ⟨hi.symm, fun _ => rfl, hq⟩

/-- What a guarded transition of a task does: nothing, or the move its guard allows. -/
def TaskStep (id : String) (guard : TaskRow → Prop) (next : TaskRow → TaskRow) (fields : Doc)
    (b : Bool) (db db' : Store) : Prop :=
  (b = false ∧ db' = db ∧ ∀ t, db.task.lookup id = some t → ¬guard t) ∨
    (b = true ∧ ∃ t, db.task.lookup id = some t ∧ guard t ∧ TaskMoved id t (next t) fields db db')

/-- How a transition of tasks ends: a step under its guard, or an exception that changes nothing. -/
def Transits (m : DbM Bool) (id : String) (guard : TaskRow → Prop) (next : TaskRow → TaskRow)
    (fields : Doc) (n : Node) : Prop :=
  Runs m n (fun b n' => TaskStep id guard next fields b n.db n'.db ∧ n'.inTxn = n.inTxn)
    fun n' => n'.inTxn = n.inTxn ∧ (n.inTxn = false → n'.db = n.db) ∧
      ∃ t, n.db.task.lookup id = some t ∧ guard t

theorem taskUpdate_transits (guard : TaskRow → Prop) [DecidablePred guard] {act : TaskRow → DbM PUnit}
    (h : ∀ t (m : Node), m.db.task.lookup id = some t → Runs (act t) m
      (fun _ m' => ∃ db', TaskMoved id t (next t) fields m.db db' ∧ m' = { m with db := db' })
      fun m' => m'.inTxn = m.inTxn) (n : Node) :
    Transits (write do
      let r ← readDb fun db => db.task.lookup id
      match r with
      | none => pure false
      | some t =>
        if guard t then do
          act t
          pure true
        else pure false : DbM Bool) id guard next fields n := by
  refine write_exact (P := fun b db' => TaskStep id guard next fields b n.db db') ?_
  intro m hm _
  rw [← hm]
  refine runs_read ?_
  cases ht : m.db.task.lookup id with
  | none =>
    refine runs_pure ⟨m.db, .inl ⟨rfl, rfl, ?_⟩, rfl⟩
    intro t h'
    rw [ht] at h'
    cases h'
  | some t =>
    refine runs_ite ?_ ?_
    · intro hg
      refine runs_bind ((h t m ht).mono ?_ fun _ hm => ⟨hm, t, rfl, hg⟩)
      rintro - m' ⟨db', hmoved, rfl⟩
      exact runs_pure ⟨db', .inr ⟨rfl, t, ht, hg, hmoved⟩, rfl⟩
    · intro hg
      refine runs_pure ⟨m.db, .inl ⟨rfl, rfl, ?_⟩, rfl⟩
      intro t' h'
      rw [ht] at h'
      cases h'
      exact hg

theorem tryClaim_transits (id workerId nowIso : String) (n : Node) :
    Transits (tryClaim id workerId nowIso) id (fun t => t.status = "pending")
      (fun t => { t with status := "claimed", claimedBy := .str workerId, claimedAt := .str nowIso })
      [("status", .str "claimed"), ("claimed_by", .str workerId), ("claimed_at", .str nowIso)] n :=
  taskUpdate_transits (fun t => t.status = "pending") (fun t m _ => moveTask_runs id t _ _ m) n

theorem renewLease_transits (id nowIso : String) (n : Node) :
    Transits (renewLease id nowIso) id (fun t => t.status = "claimed")
      (fun t => { t with claimedAt := .str nowIso }) [("claimed_at", .str nowIso)] n := by
  have hact : ∀ t (m : Node), m.db.task.lookup id = some t → Runs (do
        onDb fun db => { db with task := db.task.insert id { t with claimedAt := .str nowIso } }
        patchDoc id [("claimed_at", .str nowIso)] : DbM PUnit) m
      (fun _ m' => ∃ db', TaskMoved id t { t with claimedAt := .str nowIso }
        [("claimed_at", .str nowIso)] m.db db' ∧ m' = { m with db := db' })
      fun m' => m'.inTxn = m.inTxn := by
    intro t m _
    refine runs_bind (runs_modify ((patchDoc_runs id _ _).imp ?_))
    rintro - m' ⟨db', rfl, htask, hedge, hcounter, hvertex⟩
    refine ⟨db', ⟨htask, hvertex, hedge, ?_⟩, rfl⟩
    intro name
    rw [Store.counterOf_congr hcounter, sub_add_cancel]
    rfl
  exact taskUpdate_transits (fun t => t.status = "claimed") hact n

theorem release_transits (id toStatus : String) (nextRetryAt : Option String) (n : Node) :
    Transits (release id toStatus nextRetryAt) id (fun t => t.status = "claimed")
      (fun t => { t with status := toStatus, claimedBy := .none, nextRetryAt := optText nextRetryAt })
      [("status", .str toStatus), ("claimed_by", .none), ("next_retry_at", optText nextRetryAt)] n :=
  taskUpdate_transits (fun t => t.status = "claimed") (fun t m _ => moveTask_runs id t _ _ m) n

theorem settle_transits (id workerId toStatus : String) (nextRetryAt completedAt : Option String)
    (fields : Doc) (n : Node) :
    Transits (settle id workerId toStatus nextRetryAt completedAt fields) id
      (fun t => t.status = "claimed" ∧ t.claimedBy.eqStr workerId)
      (fun t => { t with status := toStatus, claimedBy := .none, nextRetryAt := optText nextRetryAt,
                         completedAt := optText completedAt })
      (fields.update [("status", .str toStatus), ("claimed_by", .none),
        ("next_retry_at", optText nextRetryAt), ("completed_at", optText completedAt)]) n :=
  taskUpdate_transits (fun t => t.status = "claimed" ∧ t.claimedBy.eqStr workerId)
    (fun t m _ => moveTask_runs id t _ _ m) n

theorem Transits.keeps {m : DbM Bool} {guard : TaskRow → Prop} {n : Node} (h : Transits m id guard next fields n)
    (hmove : ∀ t db', n.db.task.lookup id = some t → guard t →
      TaskMoved id t (next t) fields n.db db' → I n.db → I db') : Keeps I m n := by
  intro hn
  refine Runs.mono h ?_ ?_
  · rintro b n' ⟨⟨-, hdb, -⟩ | ⟨-, t, ht, hg, hm⟩, hi⟩
    · exact ⟨hdb ▸ hn, hi⟩
    · exact ⟨hmove t n'.db ht hg hm hn, hi⟩
  · rintro n' ⟨hi, hdb, -⟩
    exact ⟨hi, fun hf => hdb hf ▸ hn⟩

/-! ### Runs -/

mutual

/-- The act meets a condition on the store it starts from; what a caller's transaction holds meets it
on every store. -/
def Act.Meets (P : Store → Act → Prop) : Act → Store → Prop
  | .transaction acts _, _ => Act.AllMeet P acts
  | a, db => P db a

def Act.AllMeet (P : Store → Act → Prop) : List Act → Prop
  | [] => True
  | a :: acts => (∀ db, a.Meets P db) ∧ Act.AllMeet P acts

end

def Node.RunMeets (P : Store → Act → Prop) : Node → List Act → Prop
  | _, [] => True
  | n, a :: acts => a.Meets P n.db ∧ (n.after a).RunMeets P acts

def Act.Single : Act → Prop
  | .transaction _ _ => False
  | _ => True

theorem Act.meets_single {P : Store → Act → Prop} {a : Act} (ha : a.Single) (db : Store) :
    a.Meets P db ↔ P db a := by
  cases a <;> first
    | exact ha.elim
    | simp only [Act.Meets]

mutual

/-- Acts by cases: one call, or a caller's transaction around some. -/
theorem Act.induct {P : Act → Prop} {Q : List Act → Prop} (single : ∀ a : Act, a.Single → P a)
    (transaction : ∀ acts raises, Q acts → P (.transaction acts raises)) (nil : Q [])
    (cons : ∀ a acts, P a → Q acts → Q (a :: acts)) : ∀ a, P a
  | .transaction acts raises => transaction acts raises (Act.inductAll single transaction nil cons acts)
  | .putArtifact .. => single _ trivial
  | .putMany .. => single _ trivial
  | .addEdges .. => single _ trivial
  | .deleteEdge .. => single _ trivial
  | .deleteEdgesTouching .. => single _ trivial
  | .deleteArtifact .. => single _ trivial
  | .evictArtifact .. => single _ trivial
  | .relabelState .. => single _ trivial
  | .tryClaim .. => single _ trivial
  | .renewLease .. => single _ trivial
  | .release .. => single _ trivial
  | .settle .. => single _ trivial

theorem Act.inductAll {P : Act → Prop} {Q : List Act → Prop} (single : ∀ a : Act, a.Single → P a)
    (transaction : ∀ acts raises, Q acts → P (.transaction acts raises)) (nil : Q [])
    (cons : ∀ a acts, P a → Q acts → Q (a :: acts)) : ∀ acts, Q acts
  | [] => nil
  | a :: acts => cons a acts (Act.induct single transaction nil cons a) (Act.inductAll single transaction nil cons acts)

end

theorem keeps_exec {P : Store → Act → Prop} (hseq : SeqFree I) (h : ∀ a n, a.Single → P n.db a → Keeps I (exec a) n) :
    ∀ (a : Act) (n : Node), a.Meets P n.db → Keeps I (exec a) n := by
  refine Act.induct (Q := fun acts => ∀ n, Act.AllMeet P acts → Keeps I (execAll acts) n) ?_ ?_ ?_ ?_
  · exact fun a ha n hm => h a n ha ((Act.meets_single ha n.db).mp hm)
  · intro acts raises ih n hm
    rw [Act.Meets] at hm
    rw [exec]
    refine keeps_write hseq ?_
    intro m _ _
    refine keeps_bind (ih m hm) fun _ m' _ _ => ?_
    exact keeps_ite (fun _ => keeps_throw _ m') fun _ => keeps_pure _ m'
  · exact fun n _ => keeps_pure _ n
  · intro a acts ha ih n hm
    rw [Act.AllMeet] at hm
    rw [execAll]
    exact keeps_bind (ha n (hm.1 n.db)) fun _ n' _ _ => ih n' hm.2

def Ends (m : DbM α) (n n' : Node) : Prop := (∃ a, m n = .ok a n') ∨ ∃ e, m n = .error e n'

theorem Node.after_ends (n : Node) (a : Act) : Ends (exec a) n (n.after a) := by
  unfold Node.after
  cases h : exec a n with
  | ok u n' => exact .inl ⟨u, h⟩
  | error e n' => exact .inr ⟨e, h⟩

theorem Keeps.ended {m : DbM α} {n n' : Node} (h : Keeps I m n) (hend : Ends m n n') (hn : I n.db)
    (hi : n.inTxn = false) : I n'.db ∧ n'.inTxn = false := by
  have h' := h hn
  unfold Runs at h'
  rcases hend with ⟨a, hr⟩ | ⟨e, hr⟩
  · rw [hr] at h'
    exact ⟨h'.1, h'.2.trans hi⟩
  · rw [hr] at h'
    exact ⟨h'.2 hi, h'.1.trans hi⟩

/-- **Runs.**  An invariant kept by every single call that meets the condition holds after every run
whose acts do. -/
theorem keeps_run {P : Store → Act → Prop} (hseq : SeqFree I)
    (h : ∀ a n, a.Single → P n.db a → Keeps I (exec a) n) :
    ∀ (acts : List Act) (n : Node), n.RunMeets P acts → I n.db → n.inTxn = false →
      I (n.run acts).db ∧ (n.run acts).inTxn = false
  | [], _, _, hn, hi => ⟨hn, hi⟩
  | a :: acts, n, hm, hn, hi => by
    obtain ⟨hn', hi'⟩ := (keeps_exec hseq h a n hm.1).ended (n.after_ends a) hn hi
    exact keeps_run hseq h acts (n.after a) hm.2 hn' hi'

theorem keeps_discard {m : DbM α} {n : Node} (h : Keeps I m n) : Keeps I (discard m) n :=
  keeps_bind h fun _ n' _ _ => keeps_pure _ n'

def Act.Patches : Act → Prop
  | .relabelState .. | .tryClaim .. | .renewLease .. | .release .. | .settle .. => True
  | _ => False

/-- The act deletes the row of an id, and accounts for it or not. -/
def Act.Deletes (id : String) (accounted : Bool) : Act → Prop
  | .deleteArtifact x => x = id ∧ accounted = true
  | .evictArtifact x => x = id ∧ accounted = false
  | _ => False

/-- **One call** keeps what the edge path keeps, if its puts, its deletions and its patches do. -/
theorem EdgeRules.exec (hI : EdgeRules I) {a : Act} {n : Node} (ha : a.Single)
    (hput : ∀ doc s v, a = .putArtifact doc s v → Keeps I (putArtifact doc s v) n)
    (hmany : ∀ docs b s u, a = .putMany docs b s u → Keeps I (putMany docs b s u) n)
    (hedge : ∀ src dst label leaf r, a = .deleteEdge src dst label →
      n.db.edge.lookup (edgeKey src dst label) = some r → I n.db →
      I (n.db.retireEdge (edgeKey src dst label) label leaf r))
    (hrow : ∀ db id b r, a.Deletes id b → db.vertex = n.db.vertex → db.vertex.lookup id = some r → I db →
      I (db.rowDeleted id r b))
    (hpatch : a.Patches → Keeps I (Mantle.exec a) n) : Keeps I (Mantle.exec a) n := by
  cases a with
  | putArtifact doc s v => exact keeps_discard (hput doc s v rfl)
  | putMany docs b s u => exact keeps_discard (hmany docs b s u rfl)
  | addEdges edges b s => exact keeps_discard (keeps_addEdges hI edges b s n)
  | deleteEdge src dst label =>
    exact keeps_discard (keeps_deleteEdge hI.seq src dst label fun leaf r => hedge src dst label leaf r rfl)
  | deleteEdgesTouching node => exact keeps_discard (keeps_deleteEdgesTouching hI node n)
  | deleteArtifact id => exact keeps_deleteArtifact hI id true fun db r => hrow db id true r ⟨rfl, rfl⟩
  | evictArtifact id => exact keeps_deleteArtifact hI id false fun db r => hrow db id false r ⟨rfl, rfl⟩
  | transaction => exact ha.elim
  | _ => exact hpatch trivial

theorem keeps_patches (hseq : SeqFree I) {a : Act} {n : Node} (ha : a.Patches)
    (hrelabel : ∀ old new chunk (m : Node), Keeps I (relabelChunk old new chunk) m)
    (hmoved : ∀ {id t t' fields db db'}, TaskMoved id t t' fields db db' → I db → I db') :
    Keeps I (exec a) n := by
  have hstep : ∀ {m : DbM Bool} {id : String} {guard : TaskRow → Prop} {next : TaskRow → TaskRow} {fields : Doc},
      Transits m id guard next fields n → Keeps I (discard m) n := fun h =>
    keeps_discard (h.keeps fun _ _ _ _ hm => hmoved hm)
  cases a with
  | relabelState old new batch limit exclude =>
    exact keeps_discard (keeps_relabelState hseq (fun _ _ chunk m _ => hrelabel old new chunk m) batch limit exclude n)
  | tryClaim id worker now => exact hstep (tryClaim_transits id worker now n)
  | renewLease id now => exact hstep (renewLease_transits id now n)
  | release id toStatus next => exact hstep (release_transits id toStatus next n)
  | settle id worker toStatus next done fields => exact hstep (settle_transits id worker toStatus next done fields n)
  | _ => exact ha.elim

end Mantle
