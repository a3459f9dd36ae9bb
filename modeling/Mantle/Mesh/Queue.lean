import Mantle.Mesh.Segment

/-!
# Mantle.Mesh.Queue — the queue of consumed content (`mesh/sync.py`)

`_enqueue_consumed` and `drain_consumed` each read the queue's document and then write it whole.  `QueueState.step`
lets any call read and any call that has read write.
-/

namespace Mantle

open Tx

variable {d : Doc} {db snap : Store} {n n' : Node} {owed xs : List String}

/-! ### The two operations -/

def Key.toVal : Key → Val
  | .str s => .str s
  | .int n => .int n
  | .bool b => .bool b
  | .none => .none

/-- `for x in v`. -/
def iterVals : Val → Except PyErr (List Val)
  | .list xs => .ok xs
  | .tuple xs => .ok xs
  | .str s => .ok (s.toList.map fun c => .str c.toString)
  | .bytes b => .ok (b.map fun n => .int n)
  | .dict items => .ok (items.map fun e => e.1.toVal)
  | _ => .error (.typeError "object is not iterable")

/-- `p if isinstance(p, list) else []`, of the queue's `pending`. -/
def pendingOf (queue : Doc) : List Val :=
  match queue.get "pending" with
  | .list xs => xs
  | _ => []

structure ConsumedPending where
  pending : List Val
  n : ℕ
  overflow : Bool

def consumedPending (db : Store) : ConsumedPending :=
  let d := artifactOr db consumedId
  ⟨pendingOf d, (pendingOf d).length, (d.get "overflow").truthy⟩

/-- What stays in the queue when the ids are drained. -/
def remaining (queue : Doc) (ids : List Val) : Except PyErr (List Val) :=
  (iterVals ((queue.get "pending").orElse (.list []))).map fun xs =>
    xs.filter fun x => x.pyStr ∉ ids.map Val.pyStr

def drainedDoc (db : Store) (ids : List Val) : Except PyErr Doc :=
  let d := artifactOr db consumedId
  (remaining d ids).map fun p =>
    [("id", .str consumedId), ("content_type", .str s3syncCt), ("state", .str "live"),
     ("pending", .list p), ("n", .int p.length),
     ("overflow", .bool ((d.get "overflow").truthy && !p.isEmpty))]

def drainConsumed (ids : List Val) : DbM ℕ := do
  let n ← get
  let doc ← Tx.ofExcept (drainedDoc n.db ids)
  putOp doc
  pure (ids.map Val.pyStr).dedup.length

/-! ### Interleaved calls -/

inductive QueueOp
  | enqueue (batch : List Doc)
  | drain (ids : List Val)

def QueueOp.adds (me : String) : QueueOp → List String
  | .enqueue batch => consumedIds me batch
  | .drain _ => []

def QueueOp.done : QueueOp → List String
  | .enqueue _ => []
  | .drain ids => ids.map Val.pyStr

/-- The write step of an operation, from the store its read step saw. -/
def QueueOp.write (snap : Store) : QueueOp → DbM PUnit
  | .enqueue batch => do
    let n ← get
    let ids := consumedIds n.origin batch
    if ids.isEmpty then pure ⟨⟩ else putOp (consumedDoc snap ids)
  | .drain ids => do
    let doc ← Tx.ofExcept (drainedDoc snap ids)
    putOp doc

/-- A call between its read and its write.  `late` is a history variable: an enqueue wrote since the read. -/
structure Flight where
  op : QueueOp
  snap : Store
  late : Bool

/-- A node with its calls in flight.  `owed` is a history variable: the ids that were enqueued and not passed
to a drain since. -/
structure QueueState where
  node : Node
  flight : List Flight
  owed : List String

inductive QueueStep
  /-- A call starts, and reads the queue. -/
  | read (op : QueueOp)
  /-- The call at this place in the list of those in flight writes, and returns. -/
  | write (i : ℕ)

/-- What a write that returned leaves of the calls still in flight. -/
def Flight.after (adds : List String) (f : Flight) : Flight :=
  { f with late := f.late || !adds.isEmpty }

def QueueState.step (s : QueueState) : QueueStep → QueueState
  | .read op =>
    { s with flight := s.flight ++ [⟨op, s.node.db, false⟩],
             owed := s.owed.filter fun id => id ∉ op.done }
  | .write i =>
    match s.flight[i]? with
    | none => s
    | some f =>
      match f.op.write f.snap s.node with
      | .ok _ n =>
        ⟨n, (s.flight.eraseIdx i).map (Flight.after (f.op.adds s.node.origin)),
          s.owed ++ f.op.adds s.node.origin⟩
      | .error _ n => ⟨n, s.flight.eraseIdx i, s.owed⟩

/-- With no overflow reported, every id still owed is in the list. -/
def QueueState.Honest (s : QueueState) : Prop :=
  (consumedPending s.node.db).overflow = false →
    ∀ id ∈ s.owed, Val.str id ∈ (consumedPending s.node.db).pending

/-- The states a sequence of steps goes through, each with the step it takes. -/
def QueueState.Along (P : QueueState → QueueStep → Prop) : QueueState → List QueueStep → Prop
  | _, [] => True
  | s, a :: steps => P s a ∧ QueueState.Along P (s.step a) steps

/-- A node whose queue was never written, with nothing in flight. -/
def QueueState.start (n : Node) : QueueState := ⟨n, [], []⟩

/-! ### An operation is its two steps -/

theorem enqueueConsumed_eq_write (batch : List Doc) (n : Node) :
    enqueueConsumed batch n = (QueueOp.enqueue batch).write n.db n := by
  have hget : (get : DbM Node) n = .ok n n := rfl
  unfold enqueueConsumed QueueOp.write
  rw [bind_of_ok hget]
  dsimp only
  rw [bind_of_ok hget]

theorem drainConsumed_eq_write (ids : List Val) (n : Node) :
    drainConsumed ids n = (do (QueueOp.drain ids).write n.db; pure (ids.map Val.pyStr).dedup.length) n := by
  have hget : (get : DbM Node) n = .ok n n := rfl
  unfold drainConsumed QueueOp.write
  rw [bind_of_ok hget, bind_assoc]

/-! ### What a write leaves in the queue -/

theorem putOp_queue {id : String} (hd : OpShaped id d) (hi : n.inTxn = false) :
    Runs (putOp d) n
      (fun _ n' => (∀ k ∉ stampKeys, (artifactOr n'.db id).get k = (d.get k).norm) ∧
        n'.origin = n.origin ∧ n'.inTxn = false)
      fun n' => SameTables n.db n'.db ∧ n'.origin = n.origin ∧ n'.inTxn = false := by
  unfold putOp
  refine runs_ite (fun _ => runs_throw ⟨SameTables.refl _, rfl, hi⟩) fun _ => runs_bind ?_
  rw [putArtifact_consumed]
  refine runs_ite (fun _ => runs_throw ⟨SameTables.refl _, rfl, hi⟩) fun _ => ?_
  have hn : At n (SameTables n.db) n := ⟨rfl, rfl, SameTables.refl _⟩
  refine (write_at (Q := fun _ db => ∃ row, db.vertex.lookup id = some row ∧
      ∀ k ∉ stampKeys, row.doc.val.get k = (d.get k).norm) ?_ hn hi ?_).mono ?_ ?_
  · rintro - x y hs ⟨row, hrow, hk⟩
    exact ⟨row, by rw [hs.vertex]; exact hrow, hk⟩
  · intro m hdb hm
    refine ((putConsumed_sameEnv (opDoc d) m).and (putConsumed_tables (opDoc d) m)).mono ?_ ?_
    · rintro - m' ⟨he, origin, s, -, hw⟩
      refine hm.of_sameEnv he ?_
      obtain ⟨aid, s', leaf, row, m₁, hid, -, hrow, hv, -, hplace⟩ := hw.row
      have haid : aid = id := by
        have := docId_ok hid
        rw [hd.pinned.id] at this
        exact (Val.str.inj this).symm
      subst haid
      have hlook : m'.db.vertex.lookup aid =
          some (upsertVertex (m.db.vertex.lookup aid) row) := by
        have hvm : m'.db.vertex = m₁.vertex := by
          rcases hplace with ⟨hs, -⟩ | ⟨_, _, _, _, _, _, _, _, hw'⟩
          · exact hs.vertex
          · exact hw'.vertex
        rw [hvm, hv, AList.lookup_insert]
      refine ⟨_, hlook, ?_⟩
      intro k hk
      rw [(upsertVertex_fields _ row).2.2.2, (vertexRow_ok hrow).2.2.2, Doc.get_norm, stampedDoc_get hk]
      have hkk := hk
      simp only [stampKeys, List.mem_cons, List.not_mem_nil, or_false, not_or] at hkk
      unfold opDoc
      rw [Doc.get_set_of_ne _ _ hkk.2.1, Doc.get_set_of_ne _ _ hkk.1]
    · exact fun m' h => hm.of_sameEnv h.1 trivial
  · rintro _ n' ⟨hn', hi'⟩
    obtain ⟨row, hrow, hk⟩ := hn'.holds
    refine runs_pure ⟨?_, hn'.origin, hi'⟩
    intro k hks
    unfold artifactOr
    rw [hrow]
    exact hk k hks
  · rintro n' ⟨hn', hi'⟩
    exact ⟨hn'.holds, hn'.origin, hi'⟩

def QueueHolds (queue : Doc) (xs : List String) : Prop :=
  queue.get "pending" = .list (xs.map Val.str) ∨ queue.get "pending" = .none ∧ xs = []

theorem QueueHolds.pendingOf {queue : Doc} (h : QueueHolds queue xs) :
    pendingOf queue = xs.map Val.str := by
  unfold Mantle.pendingOf
  rcases h with h | ⟨h, rfl⟩
  · rw [h]
  · rw [h]
    rfl

theorem QueueHolds.remaining {queue : Doc} (h : QueueHolds queue xs) (ids : List Val) :
    remaining queue ids = .ok ((xs.filter fun x => x ∉ ids.map Val.pyStr).map Val.str) := by
  have hiter : iterVals ((queue.get "pending").orElse (.list [])) = .ok (xs.map Val.str) := by
    rcases h with h | ⟨h, rfl⟩
    · rw [h]
      cases xs <;> rfl
    · rw [h]
      rfl
  unfold Mantle.remaining
  rw [hiter]
  change Except.ok ((xs.map Val.str).filter fun x => x.pyStr ∉ ids.map Val.pyStr) = _
  rw [List.filter_map]
  rfl

theorem normList_texts (xs : List String) : Val.normList (xs.map Val.str) = xs.map Val.str := by
  induction xs with
  | nil => rfl
  | cons x xs ih =>
    rw [List.map_cons, Val.normList, ih]
    rfl

theorem dedupVals_texts : ∀ (seen : List String) (xs : List String),
    ∃ ys : List String, dedupVals seen (xs.map Val.str) = ys.map Val.str ∧
      ∀ id, id ∈ ys ↔ id ∈ xs ∧ reprStr id ∉ seen
  | seen, [] => ⟨[], rfl, by simp⟩
  | seen, x :: xs => by
    rw [List.map_cons, dedupVals]
    by_cases hx : (Val.str x).repr ∈ seen
    · rw [if_pos hx]
      obtain ⟨ys, hys, hmem⟩ := dedupVals_texts seen xs
      refine ⟨ys, hys, fun id => ?_⟩
      rw [hmem, List.mem_cons]
      constructor
      · exact fun h => ⟨.inr h.1, h.2⟩
      · rintro ⟨rfl | h, hno⟩
        · exact absurd hx hno
        · exact ⟨h, hno⟩
    · rw [if_neg hx]
      obtain ⟨ys, hys, hmem⟩ := dedupVals_texts ((Val.str x).repr :: seen) xs
      refine ⟨x :: ys, by rw [hys]; rfl, fun id => ?_⟩
      have hrepr : reprStr id ∈ (Val.str x).repr :: seen ↔ id = x ∨ reprStr id ∈ seen := by
        rw [List.mem_cons]
        exact or_congr (reprStr_injective.eq_iff) Iff.rfl
      rw [List.mem_cons, hmem, hrepr, List.mem_cons]
      by_cases hid : id = x
      · subst hid
        exact ⟨fun _ => ⟨.inl rfl, hx⟩, fun _ => .inl rfl⟩
      · simp [hid]

/-- The queue `d` was written from what `snap` held. -/
structure QueueWritten (d : Doc) (n n' : Node) : Prop where
  fields : ∀ k ∉ stampKeys, (artifactOr n'.db consumedId).get k = (d.get k).norm
  origin : n'.origin = n.origin
  idle : n'.inTxn = false

theorem QueueWritten.holds (h : QueueWritten d n n') (hd : d.get "pending" = .list (xs.map Val.str)) :
    QueueHolds (artifactOr n'.db consumedId) xs := by
  refine .inl ?_
  rw [h.fields _ (by decide), hd]
  change Val.list (Val.normList _) = _
  rw [normList_texts]

theorem QueueWritten.overflow (h : QueueWritten d n n') {b : Bool} (hd : d.get "overflow" = .bool b) :
    (consumedPending n'.db).overflow = b := by
  change ((artifactOr n'.db consumedId).get "overflow").truthy = b
  rw [h.fields _ (by decide), hd]
  rfl

theorem consumedDoc_queue (hx : QueueHolds (artifactOr snap consumedId) xs) (ids : List String) :
    ∃ (zs : List String) (b : Bool), (consumedDoc snap ids).get "pending" = .list (zs.map Val.str) ∧
      (consumedDoc snap ids).get "overflow" = .bool b ∧
      (b = false → (consumedPending snap).overflow = false ∧ ∀ id, id ∈ xs ∨ id ∈ ids → id ∈ zs) := by
  obtain ⟨ys, hys, hmem⟩ := dedupVals_texts [] (xs ++ ids)
  have hmerged : dedupVals [] (pendingOf (artifactOr snap consumedId) ++ ids.map Val.str) =
      ys.map Val.str := by
    rw [hx.pendingOf, ← List.map_append, hys]
  obtain ⟨b, hb⟩ : ∃ b, b = (((artifactOr snap consumedId).get "overflow").truthy ||
    decide ((ys.map Val.str).length > consumedCap)) := ⟨_, rfl⟩
  have hdoc : consumedDoc snap ids =
      [("id", .str consumedId), ("content_type", .str s3syncCt), ("state", .str "live"),
        ("pending", .list (if b then (ys.map Val.str).take consumedCap else ys.map Val.str)),
        ("n", .int (if b then (ys.map Val.str).take consumedCap else ys.map Val.str).length),
        ("overflow", .bool b)] := by
    rw [hb, ← hmerged]
    rfl
  rw [hdoc]
  refine ⟨if b then ys.take consumedCap else ys, b, ?_, rfl, ?_⟩
  · change Val.list (if b then (ys.map Val.str).take consumedCap else ys.map Val.str) = _
    rw [← List.map_take]
    split_ifs <;> rfl
  · intro hfalse
    rw [hfalse] at hb ⊢
    refine ⟨(Bool.or_eq_false_iff.mp hb.symm).1, fun id hid => ?_⟩
    exact (hmem id).mpr ⟨List.mem_append.mpr hid, by simp⟩

/-! ### The write steps -/

structure QueueLeft (n n' : Node) : Prop where
  tables : SameTables n.db n'.db
  origin : n'.origin = n.origin
  idle : n'.inTxn = false

theorem QueueLeft.refl (hi : n.inTxn = false) : QueueLeft n n := ⟨SameTables.refl _, rfl, hi⟩

theorem QueueLeft.queue (h : QueueLeft n n') :
    artifactOr n'.db consumedId = artifactOr n.db consumedId := by
  unfold artifactOr
  rw [h.tables.vertex]

theorem enqueue_writes (batch : List Doc) (snap : Store) (hi : n.inTxn = false) :
    Runs ((QueueOp.enqueue batch).write snap) n
      (fun _ n' => consumedIds n.origin batch = [] ∧ n' = n ∨ consumedIds n.origin batch ≠ [] ∧
        QueueWritten (consumedDoc snap (consumedIds n.origin batch)) n n')
      (QueueLeft n) := by
  refine runs_bind (runs_get (runs_ite (fun he => runs_pure ?_) fun hne => ?_))
  · exact .inl ⟨List.isEmpty_iff.mp he, rfl⟩
  · refine (putOp_queue (opShaped_consumedDoc snap _) hi).mono ?_ ?_
    · rintro - n' ⟨hf, ho, hi'⟩
      exact .inr ⟨fun he => hne (List.isEmpty_iff.mpr he), hf, ho, hi'⟩
    · rintro n' ⟨ht, ho, hi'⟩
      exact ⟨ht, ho, hi'⟩

theorem drainedDoc_shape {ids : List Val} (h : drainedDoc snap ids = .ok d) :
    OpShaped consumedId d := by
  unfold drainedDoc at h
  dsimp only at h
  obtain ⟨p, hr, h⟩ := bind_ok h
  cases h
  exact ⟨rfl, rfl, rfl, rfl, rfl⟩

theorem drain_writes (ids : List Val) (snap : Store) (hi : n.inTxn = false) :
    Runs ((QueueOp.drain ids).write snap) n
      (fun _ n' => ∃ d, drainedDoc snap ids = .ok d ∧ QueueWritten d n n') (QueueLeft n) := by
  refine runs_bind (runs_ofExcept ?_ (QueueLeft.refl hi))
  intro d hd
  refine (putOp_queue (drainedDoc_shape hd) hi).mono ?_ ?_
  · rintro - n' ⟨hf, ho, hi'⟩
    exact ⟨d, hd, hf, ho, hi'⟩
  · rintro n' ⟨ht, ho, hi'⟩
    exact ⟨ht, ho, hi'⟩

/-! ### The invariant -/

/-- The drain would leave nothing of a queue that reports an overflow. -/
def Empties (db : Store) (ids : List Val) : Prop :=
  (consumedPending db).overflow = true ∧ remaining (artifactOr db consumedId) ids = .ok []

/-- No call writes over what an enqueue wrote since it read, and a drain that empties a queue with an overflow is passed
every id that is still owed. -/
def QueueStep.Careful (s : QueueState) : QueueStep → Prop
  | .read (.enqueue _) => True
  | .read (.drain ids) => Empties s.node.db ids → ∀ id ∈ s.owed, id ∈ ids.map Val.pyStr
  | .write i => ∀ f, s.flight[i]? = some f → f.late = false

structure QueueCovers (db : Store) (owed : List String) : Prop where
  formed : ∃ xs, QueueHolds (artifactOr db consumedId) xs
  complete : (consumedPending db).overflow = false →
    ∀ id ∈ owed, Val.str id ∈ (consumedPending db).pending

/-- A call that may still write: its queue covers what is owed, and nothing owed is among its done ids. -/
structure Flight.Sound (f : Flight) (owed : List String) : Prop where
  covers : QueueCovers f.snap owed
  apart : ∀ id ∈ owed, id ∉ f.op.done
  settles : ∀ ids, f.op = .drain ids → Empties f.snap ids → owed = []

structure QueueState.Inv (s : QueueState) : Prop where
  idle : s.node.inTxn = false
  covers : QueueCovers s.node.db s.owed
  flights : ∀ f ∈ s.flight, f.late = false → f.Sound s.owed

theorem QueueCovers.mono {owed' : List String} (h : QueueCovers db owed) (hs : ∀ id ∈ owed', id ∈ owed) :
    QueueCovers db owed' :=
  ⟨h.formed, fun hb id hid => h.complete hb id (hs id hid)⟩

theorem Flight.Sound.mono {f : Flight} {owed' : List String} (h : f.Sound owed)
    (hs : ∀ id ∈ owed', id ∈ owed) : f.Sound owed' where
  covers := h.covers.mono hs
  apart := fun id hid => h.apart id (hs id hid)
  settles := by
    intro ids hop he
    refine List.eq_nil_iff_forall_not_mem.mpr fun id hid => ?_
    have := hs id hid
    rw [h.settles ids hop he] at this
    cases this

theorem QueueCovers.of_queue {db' : Store} (h : QueueCovers db owed)
    (hq : artifactOr db' consumedId = artifactOr db consumedId) : QueueCovers db' owed := by
  obtain ⟨xs, hx⟩ := h.formed
  have hp : consumedPending db' = consumedPending db := by
    unfold consumedPending
    rw [hq]
  exact ⟨⟨xs, hq ▸ hx⟩, by rw [hp]; exact h.complete⟩

theorem QueueHolds.mem_pending (h : QueueHolds (artifactOr db consumedId) xs) {id : String} :
    Val.str id ∈ (consumedPending db).pending ↔ id ∈ xs := by
  change Val.str id ∈ Mantle.pendingOf _ ↔ _
  rw [h.pendingOf]
  simp

theorem QueueCovers.enqueued {ids : List String} (h : QueueCovers snap owed)
    (hw : QueueWritten (consumedDoc snap ids) n n') :
    QueueCovers n'.db (owed ++ ids) := by
  obtain ⟨xs, hx⟩ := h.formed
  obtain ⟨zs, b, hp, hb, hall⟩ := consumedDoc_queue hx ids
  refine ⟨⟨zs, hw.holds hp⟩, ?_⟩
  intro hover id hid
  rw [hw.overflow hb] at hover
  obtain ⟨hsnap, hmem⟩ := hall hover
  rw [(hw.holds hp).mem_pending]
  refine hmem id ?_
  rcases List.mem_append.mp hid with hid | hid
  · exact .inl (hx.mem_pending.mp (h.complete hsnap id hid))
  · exact .inr hid

theorem Flight.Sound.drained {f : Flight} (h : f.Sound owed) {ids : List Val} (hop : f.op = .drain ids)
    (hd : drainedDoc f.snap ids = .ok d) (hw : QueueWritten d n n') : QueueCovers n'.db owed := by
  obtain ⟨xs, hx⟩ := h.covers.formed
  have hrest := hx.remaining ids
  unfold drainedDoc at hd
  dsimp only at hd
  rw [hrest] at hd
  cases hd
  have hnew : QueueHolds (artifactOr n'.db consumedId) (xs.filter fun x => x ∉ ids.map Val.pyStr) :=
    hw.holds rfl
  refine ⟨⟨_, hnew⟩, ?_⟩
  intro hover id hid
  rw [hw.overflow rfl] at hover
  rw [hnew.mem_pending, List.mem_filter]
  rcases Bool.and_eq_false_iff.mp hover with hsnap | hempty
  · -- the flag was not set, so the list was complete
    refine ⟨hx.mem_pending.mp (h.covers.complete hsnap id hid), decide_eq_true ?_⟩
    have := h.apart id hid
    rw [hop] at this
    exact this
  · by_cases hsnap : (consumedPending f.snap).overflow = true
    · have hnil : xs.filter (fun x => x ∉ ids.map Val.pyStr) = [] := by
        simpa using hempty
      have := h.settles ids hop ⟨hsnap, by rw [hrest, hnil]; rfl⟩
      rw [this] at hid
      cases hid
    · refine ⟨hx.mem_pending.mp (h.covers.complete (by simpa using hsnap) id hid), decide_eq_true ?_⟩
      have := h.apart id hid
      rw [hop] at this
      exact this

/-! ### Steps and runs -/

theorem QueueState.Inv.read {s : QueueState} (h : s.Inv) {op : QueueOp}
    (hc : (QueueStep.read op).Careful s) : (s.step (.read op)).Inv := by
  have hsub : ∀ id ∈ s.owed.filter (fun id => id ∉ op.done), id ∈ s.owed :=
    fun id hid => (List.mem_filter.mp hid).1
  refine ⟨h.idle, h.covers.mono hsub, ?_⟩
  intro f hf hl
  rcases List.mem_append.mp hf with hf | hf
  · exact (h.flights f hf hl).mono hsub
  · -- the call that has just read
    rw [List.mem_singleton] at hf
    subst hf
    refine ⟨h.covers.mono hsub, fun id hid => of_decide_eq_true (List.mem_filter.mp hid).2, ?_⟩
    rintro ids rfl he
    refine List.eq_nil_iff_forall_not_mem.mpr fun id hid => ?_
    obtain ⟨hid, hno⟩ := List.mem_filter.mp hid
    exact of_decide_eq_true hno (hc he id hid)

theorem QueueState.Inv.write {s : QueueState} (h : s.Inv) {i : ℕ}
    (hc : (QueueStep.write i).Careful s) : (s.step (.write i)).Inv := by
  unfold QueueState.step
  dsimp only
  cases hf : s.flight[i]? with
  | none => exact h
  | some f =>
    dsimp only
    have hsound := h.flights f (List.mem_of_getElem? hf) (hc f hf)
    have hrest : ∀ g ∈ s.flight.eraseIdx i, g.late = false → g.Sound s.owed :=
      fun g hg => h.flights g (List.mem_of_mem_eraseIdx hg)
    cases hop : f.op with
    | enqueue batch =>
      have hw := enqueue_writes batch f.snap h.idle
      cases hr : (QueueOp.enqueue batch).write f.snap s.node with
      | error e n' =>
        have hq := hw.error hr
        exact ⟨hq.idle, h.covers.of_queue hq.queue, hrest⟩
      | ok u n' =>
        rcases hw.ok hr with ⟨hnil, rfl⟩ | ⟨hne, hq⟩
        · -- nothing to add, and nothing written
          have hadds : (QueueOp.enqueue batch).adds s.node.origin = [] := hnil
          refine ⟨h.idle, by rw [hadds, List.append_nil]; exact h.covers, ?_⟩
          intro g hg hl
          rw [hadds] at hg
          obtain ⟨g', hg', rfl⟩ := List.mem_map.mp hg
          rw [hadds, List.append_nil]
          have := hrest g' hg' (by simpa [Flight.after] using hl)
          exact ⟨this.covers, this.apart, this.settles⟩
        · refine ⟨hq.idle, hsound.covers.enqueued hq, ?_⟩
          -- every other call is late now
          intro g hg hl
          obtain ⟨g', -, rfl⟩ := List.mem_map.mp hg
          have hlate : (Flight.after ((QueueOp.enqueue batch).adds s.node.origin) g').late = true := by
            have hadds : ((QueueOp.enqueue batch).adds s.node.origin).isEmpty = false := by
              rw [Bool.eq_false_iff]
              exact fun he => hne (List.isEmpty_iff.mp he)
            unfold Flight.after
            rw [hadds]
            simp
          rw [hlate] at hl
          cases hl
    | drain ids =>
      have hw := drain_writes ids f.snap h.idle
      cases hr : (QueueOp.drain ids).write f.snap s.node with
      | error e n' =>
        have hq := hw.error hr
        exact ⟨hq.idle, h.covers.of_queue hq.queue, hrest⟩
      | ok u n' =>
        obtain ⟨d, hd, hq⟩ := hw.ok hr
        have hadds : (QueueOp.drain ids).adds s.node.origin = [] := rfl
        refine ⟨hq.idle, by rw [hadds, List.append_nil]; exact hsound.drained hop hd hq, ?_⟩
        intro g hg hl
        obtain ⟨g', hg', rfl⟩ := List.mem_map.mp hg
        rw [hadds, List.append_nil]
        have := hrest g' hg' (by simpa [Flight.after, hadds] using hl)
        exact ⟨this.covers, this.apart, this.settles⟩

theorem QueueState.Inv.step {s : QueueState} (h : s.Inv) :
    ∀ {a : QueueStep}, a.Careful s → (s.step a).Inv
  | .read _, hc => h.read hc
  | .write _, hc => h.write hc

theorem QueueState.Inv.run : ∀ {steps : List QueueStep} {s : QueueState}, s.Inv →
    s.Along (fun s a => a.Careful s) steps → (steps.foldl QueueState.step s).Inv
  | [], _, h, _ => h
  | _ :: _, _, h, ha => (h.step ha.1).run ha.2

/-- **The queue is honest** where no call writes over an enqueue that it did not see, and no drain forgets an overflow
while an id is owed. -/
theorem consumed_honest (n : Node) (steps : List QueueStep) (hi : n.inTxn = false)
    (hn : n.db.vertex.lookup consumedId = none)
    (hc : (QueueState.start n).Along (fun s a => a.Careful s) steps) :
    (steps.foldl QueueState.step (QueueState.start n)).Honest := by
  have hempty : artifactOr n.db consumedId = [] := by
    unfold artifactOr
    rw [hn]
  have hstart : (QueueState.start n).Inv := by
    refine ⟨hi, ⟨⟨[], .inr ⟨?_, rfl⟩⟩, ?_⟩, ?_⟩
    · change (artifactOr n.db consumedId).get "pending" = .none
      rw [hempty]
      rfl
    · intro _ id hid
      cases hid
    · intro f hf
      cases hf
  exact (hstart.run hc).covers.complete

/-! ### Both conditions are needed -/

def sentDoc (id : String) : Doc :=
  [("id", .str id), ("content_ref", .str "c"), ("_origin", .str "there"), ("_seq", .int 1)]

def promotedRun : List QueueStep :=
  [.read (.enqueue [sentDoc "x"]), .write 0, .read (.enqueue [sentDoc "y"]), .write 0,
    .read (.drain [.str "x"]), .write 0]

theorem consumed_honest_promotedRun :
    (QueueState.start (Node.fresh ⟨"here", by decide⟩ 1)).Along (fun s a => a.Careful s) promotedRun ∧
    (promotedRun.foldl QueueState.step (QueueState.start (Node.fresh ⟨"here", by decide⟩ 1))).Honest ∧
    (promotedRun.foldl QueueState.step (QueueState.start (Node.fresh ⟨"here", by decide⟩ 1))).owed =
      ["y"] := by
  have hrun : (QueueState.start (Node.fresh ⟨"here", by decide⟩ 1)).Along (fun s a => a.Careful s)
      promotedRun := by
    have hflag : (consumedPending ((promotedRun.take 4).foldl QueueState.step
        (QueueState.start (Node.fresh ⟨"here", by decide⟩ 1))).node.db).overflow = false := by
      decide +kernel
    have hlate : ∀ k ∈ [1, 3, 5], ∀ f ∈ ((promotedRun.take k).foldl QueueState.step
        (QueueState.start (Node.fresh ⟨"here", by decide⟩ 1))).flight, f.late = false := by
      decide +kernel
    refine ⟨trivial, ?_, trivial, ?_, ?_, ?_, trivial⟩
    · exact fun f hf => hlate 1 (by decide) f (List.mem_of_getElem? hf)
    · exact fun f hf => hlate 3 (by decide) f (List.mem_of_getElem? hf)
    · intro he
      have hboth : false = true := hflag.symm.trans he.1
      cases hboth
    · exact fun f hf => hlate 5 (by decide) f (List.mem_of_getElem? hf)
  exact ⟨hrun, consumed_honest _ promotedRun rfl rfl hrun, by decide +kernel⟩

def crossedRun : List QueueStep :=
  [.read (.enqueue [sentDoc "x"]), .read (.enqueue [sentDoc "y"]), .write 0, .write 0]

theorem crossedRun_dishonest :
    ¬ ∀ (n : Node) (steps : List QueueStep), n.inTxn = false → n.db.vertex.lookup consumedId = none →
      (steps.foldl QueueState.step (QueueState.start n)).Honest := by
  intro h
  have hrun := h (Node.fresh ⟨"here", by decide⟩ 1) crossedRun rfl rfl
  have hflag : (consumedPending (crossedRun.foldl QueueState.step
      (QueueState.start (Node.fresh ⟨"here", by decide⟩ 1))).node.db).overflow = false := by
    decide +kernel
  have howed : "x" ∈ (crossedRun.foldl QueueState.step
      (QueueState.start (Node.fresh ⟨"here", by decide⟩ 1))).owed := by
    decide +kernel
  have hlost : ((consumedPending (crossedRun.foldl QueueState.step
      (QueueState.start (Node.fresh ⟨"here", by decide⟩ 1))).node.db).pending.any fun v =>
      v.eqStr "x") = false := by
    decide +kernel
  have hmem := hrun hflag "x" howed
  rw [List.any_eq_false] at hlost
  exact hlost _ hmem (by decide)

end Mantle
