import Mantle.Db.Keeps

/-!
# Mantle.Db.Lease — who holds a task, over any interleaving of workers

A claim, once won, is current as long as the task row stays claimed by its winner.  `Exclusive` says what a lease
promises along a run of calls.
-/

namespace Mantle

open Tx

/-- One call against the pool.  `renewLease` names its caller, whom the store is not told. -/
inductive Call
  | tryClaim (worker id nowIso : String)
  | renewLease (worker id nowIso : String)
  | release (id toStatus : String) (nextRetryAt : Option String)
  | settle (worker id toStatus : String) (nextRetryAt completedAt : Option String) (fields : Doc)
  | rewrite (doc : Doc) (stampRev newVersion : Bool)
  | rewriteMany (docs : List Doc) (batch : ℕ) (stampRev : Bool) (onUnordered : OnUnordered)
  | delete (id : String)

def Call.perform : Call → DbM Bool
  | .tryClaim worker id nowIso => Mantle.tryClaim id worker nowIso
  | .renewLease _ id nowIso => Mantle.renewLease id nowIso
  | .release id toStatus nextRetryAt => Mantle.release id toStatus nextRetryAt
  | .settle worker id toStatus nextRetryAt completedAt fields =>
    Mantle.settle id worker toStatus nextRetryAt completedAt fields
  | .rewrite doc stampRev newVersion => do
    let _ ← putArtifact doc stampRev newVersion
    pure true
  | .rewriteMany docs batch stampRev onUnordered => do
    let _ ← putMany docs batch stampRev onUnordered
    pure true
  | .delete id => do
    deleteArtifact id true
    pure true

/-- What the caller is told; `none` when the call raises. -/
def Node.reply (n : Node) (c : Call) : Option Bool :=
  match c.perform n with
  | .ok b _ => some b
  | .error _ _ => none

def Node.call (n : Node) (c : Call) : Node :=
  match c.perform n with
  | .ok _ n' => n'
  | .error _ n' => n'

def Node.callAll (n : Node) (calls : List Call) : Node := calls.foldl Node.call n

/-! ### What a lease promises -/

/-- The task is claimed, by this worker. -/
def Store.HeldBy (db : Store) (id worker : String) : Prop :=
  ∃ t, db.task.lookup id = some t ∧ t.status = "claimed" ∧ t.claimedBy = .str worker

def Store.Pending (db : Store) (id : String) : Prop :=
  ∃ t, db.task.lookup id = some t ∧ t.status = "pending"

/-- After these calls the worker's own latest claim stands: it was won, and the task has been held by
its winner ever since. -/
def Node.Current (n : Node) (calls : List Call) (id worker : String) : Prop :=
  ∃ before now since, calls = before ++ .tryClaim worker id now :: since ∧
    (n.callAll before).reply (.tryClaim worker id now) = some true ∧
    ∀ q, q <+: since → (n.callAll (before ++ .tryClaim worker id now :: q)).db.HeldBy id worker

/-- The worker has won the task at some point of these calls. -/
def Node.HasWon (n : Node) (calls : List Call) (id worker : String) : Prop :=
  ∃ before now since, calls = before ++ .tryClaim worker id now :: since ∧
    (n.callAll before).reply (.tryClaim worker id now) = some true

/-- **What leases promise along a run of calls.** -/
structure Exclusive (n : Node) (calls : List Call) : Prop where
  /-- Between two winning claims of a task, a new pending period began. -/
  oneWinner : ∀ before mid after worker worker' now now' id,
    calls = before ++ .tryClaim worker id now :: (mid ++ .tryClaim worker' id now' :: after) →
    (n.callAll before).reply (.tryClaim worker id now) = some true →
    (n.callAll (before ++ .tryClaim worker id now :: mid)).reply (.tryClaim worker' id now') = some true →
    ∃ q c q', mid = q ++ c :: q' ∧
      ¬(n.callAll (before ++ .tryClaim worker id now :: q)).db.Pending id ∧
      (n.callAll (before ++ .tryClaim worker id now :: (q ++ [c]))).db.Pending id
  /-- A worker settles only under its own current claim. -/
  settles : ∀ before after worker id toStatus nextRetryAt completedAt fields,
    calls = before ++ .settle worker id toStatus nextRetryAt completedAt fields :: after →
    (n.callAll before).reply (.settle worker id toStatus nextRetryAt completedAt fields) = some true →
    n.Current before id worker
  /-- A worker whose claim is gone is told so. -/
  renews : ∀ before after worker id now,
    calls = before ++ .renewLease worker id now :: after → n.HasWon before id worker →
    ¬n.Current before id worker →
    (n.callAll before).reply (.renewLease worker id now) = some false

/-- The document names no holder of a claimed task but the one that holds it. -/
def BringsNoClaim (db : Store) (d : Doc) : Prop :=
  ∀ id worker, d.get "id" = .str id → (d.get "status").pyStr = "claimed" →
    bindText (d.get "claimed_by") = .ok (.str worker) → db.HeldBy id worker

/-- The call does not renew another's lease, and writes no document that brings a claim of its own. -/
def Call.Fair (db : Store) : Call → Prop
  | .renewLease worker id _ => ∀ t, db.task.lookup id = some t → t.status = "claimed" →
    t.claimedBy = .str worker
  | .rewrite doc stampRev newVersion => ∀ d ∈ putRows db doc stampRev newVersion, BringsNoClaim db d
  | .rewriteMany docs _ _ _ => ∀ d ∈ docs, BringsNoClaim db d
  | _ => True

def Node.FairCalls : Node → List Call → Prop
  | _, [] => True
  | n, c :: calls => c.Fair n.db ∧ (n.call c).FairCalls calls

/-! ### One step -/

variable {n : Node} {id worker : String}

/-- The document does not put the worker's name on the claimed task. -/
def ForgesNot (id worker : String) (d : Doc) : Prop :=
  ¬(d.get "id" = .str id ∧ (d.get "status").pyStr = "claimed" ∧
    bindText (d.get "claimed_by") = .ok (.str worker))

variable {db : Store}

theorem heldBy_congr {db' : Store} (h : db'.task = db.task) :
    db'.HeldBy id worker ↔ db.HeldBy id worker := by
  unfold Store.HeldBy
  rw [h]

theorem acceptEdge_task (db : Store) (key : EdgeKey) (label : String) (row : ERow) (h : ℕ) :
    (db.acceptEdge key label row h).task = db.task := by
  unfold Store.acceptEdge
  split <;> rfl

theorem taskOf_claim {d : Doc} {ct : Val} {t : TaskRow} (h : taskOf (some d) ct = .ok (some t)) :
    t.status = (d.get "status").pyStr ∧ bindText (d.get "claimed_by") = .ok t.claimedBy := by
  obtain ⟨-, hst, -, -, -, hcb, -⟩ := taskRow_ok (taskOf_some h).2.2
  exact ⟨hst, hcb⟩

theorem heldBy_rowRules (id worker : String) :
    RowRules (fun db => ¬db.HeldBy id worker) (ForgesNot id worker) where
  seq := fun _ _ h => h
  conflict := fun _ h => ⟨h, h⟩
  accept := by
    intro db key e origin seq leaf row h _ _ hdb
    rwa [heldBy_congr (acceptEdge_task _ _ _ _ _)]
  retire := fun _ _ _ _ _ h => h
  reparent := by
    intro doc v h
    unfold ForgesNot
    rw [Doc.get_set_of_ne _ _ (by decide), Doc.get_set_of_ne _ _ (by decide),
      Doc.get_set_of_ne _ _ (by decide)]
    exact h
  row := by
    rintro db aid doc origin seq s leaf row t hok - haid - - ht hdb ⟨t', hlook, hst, hcb⟩
    rw [(Store.rowStored_rows _ _ _ _ _ _).2.2, Store.lookup_setTask] at hlook
    by_cases hid : id = aid
    · subst hid
      rw [if_pos rfl] at hlook
      subst hlook
      obtain ⟨hs, hc⟩ := taskOf_claim ht
      rw [stampedDoc_get (by decide)] at hs hc
      exact hok ⟨docId_ok haid, hs ▸ hst, hcb ▸ hc⟩
    · rw [if_neg hid] at hlook
      exact hdb ⟨t', hlook, hst, hcb⟩

theorem TaskMoved.heldBy {id' : String} {t t' : TaskRow} {fields : Doc} {db' : Store}
    (h : TaskMoved id' t t' fields db db') (hheld : db'.HeldBy id worker) :
    (id = id' ∧ t'.status = "claimed" ∧ t'.claimedBy = .str worker) ∨ db.HeldBy id worker := by
  obtain ⟨u, hu, hst, hcb⟩ := hheld
  rw [h.task, Table.lookup_insert_of] at hu
  by_cases hid : id = id'
  · rw [if_pos hid] at hu
    cases hu
    exact .inl ⟨hid, hst, hcb⟩
  · rw [if_neg hid] at hu
    exact .inr ⟨u, hu, hst, hcb⟩

theorem putRows_forgesNot {doc : Doc} {stampRev newVersion : Bool}
    (hfair : ∀ d ∈ putRows db doc stampRev newVersion, BringsNoClaim db d) (hdb : ¬db.HeldBy id worker) :
    ∀ d ∈ putRows db doc stampRev newVersion, ForgesNot id worker d :=
  fun d hd h => hdb (hfair d hd id worker h.1 h.2.1 h.2.2)

variable {c : Call}

theorem keeps_call (hfair : c.Fair n.db) (hc : ∀ now, c ≠ .tryClaim worker id now) :
    Keeps (fun db => ¬db.HeldBy id worker) c.perform n := by
  have hrules := heldBy_rowRules id worker
  cases c with
  | tryClaim worker' id' now =>
    refine (tryClaim_transits id' worker' now n).keeps ?_
    intro t db' _ _ hm hdb hheld
    rcases hm.heldBy hheld with ⟨rfl, -, hcb⟩ | h
    · cases hcb
      exact hc now rfl
    · exact hdb h
  | renewLease worker' id' now =>
    refine (renewLease_transits id' now n).keeps ?_
    intro t db' ht hst hm hdb hheld
    rcases hm.heldBy hheld with ⟨rfl, -, hcb⟩ | h
    · exact hdb ⟨t, ht, hst, hcb⟩
    · exact hdb h
  | release id' toStatus nextRetryAt =>
    refine (release_transits id' toStatus nextRetryAt n).keeps ?_
    intro t db' _ _ hm hdb hheld
    rcases hm.heldBy hheld with ⟨-, -, hcb⟩ | h
    · cases hcb
    · exact hdb h
  | settle worker' id' toStatus nextRetryAt completedAt fields =>
    refine (settle_transits id' worker' toStatus nextRetryAt completedAt fields n).keeps ?_
    intro t db' _ _ hm hdb hheld
    rcases hm.heldBy hheld with ⟨-, -, hcb⟩ | h
    · cases hcb
    · exact hdb h
  | rewrite doc stampRev newVersion =>
    intro hdb
    exact keeps_bind (keeps_putArtifact hrules (putRows_forgesNot hfair hdb))
      (fun _ n' _ _ => keeps_pure _ n') hdb
  | rewriteMany docs batch stampRev onUnordered =>
    intro hdb
    refine keeps_bind (keeps_putMany hrules batch onUnordered ?_) (fun _ n' _ _ => keeps_pure _ n') hdb
    exact fun d hd h => hdb (hfair d hd id worker h.1 h.2.1 h.2.2)
  | delete id' =>
    refine keeps_bind (keeps_deleteArtifact hrules.toEdgeRules id' true ?_)
      fun _ n' _ _ => keeps_pure _ n'
    rintro db r - - hdb ⟨t, ht, hst, hcb⟩
    rw [(Store.rowDeleted_rows _ _ _ _).2.2, Table.lookup_erase_of] at ht
    by_cases hid : id = id'
    · rw [if_pos hid] at ht
      cases ht
    · rw [if_neg hid] at ht
      exact hdb ⟨t, ht, hst, hcb⟩

theorem call_ok {b : Bool} {n' : Node} (h : c.perform n = .ok b n') :
    n.call c = n' ∧ n.reply c = some b := by
  unfold Node.call Node.reply
  rw [h]
  exact ⟨rfl, rfl⟩

theorem call_error {e : PyErr} {n' : Node} (h : c.perform n = .error e n') :
    n.call c = n' ∧ n.reply c = none := by
  unfold Node.call Node.reply
  rw [h]
  exact ⟨rfl, rfl⟩

theorem reply_some {b : Bool} (h : n.reply c = some b) : c.perform n = .ok b (n.call c) := by
  cases hr : c.perform n with
  | error e n' =>
    rw [(call_error hr).2] at h
    cases h
  | ok b' n' =>
    obtain ⟨hc, hb⟩ := call_ok hr
    rw [hb] at h
    cases h
    rw [hc]

theorem tryClaim_won {now : String} (h : n.reply (.tryClaim worker id now) = some true) :
    n.db.Pending id ∧ (n.call (.tryClaim worker id now)).db.HeldBy id worker := by
  obtain ⟨⟨hf, -⟩ | ⟨-, t, ht, hg, hm⟩, -⟩ :=
    Runs.ok (tryClaim_transits id worker now n) (reply_some h)
  · cases hf
  · refine ⟨⟨t, ht, hg⟩,
      { t with status := "claimed", claimedBy := .str worker, claimedAt := .str now }, ?_, rfl, rfl⟩
    rw [hm.task, AList.lookup_insert]

/-- **One step.**  Whoever holds a task after a fair call held it before, or just won it. -/
theorem heldBy_call (hfair : c.Fair n.db) (hi : n.inTxn = false) (h : (n.call c).db.HeldBy id worker) :
    n.db.HeldBy id worker ∨ ∃ now, c = .tryClaim worker id now ∧ n.reply c = some true := by
  by_contra hno
  rw [not_or] at hno
  obtain ⟨hdb, hclaim⟩ := hno
  by_cases hc : ∃ now, c = .tryClaim worker id now
  · obtain ⟨now, rfl⟩ := hc
    -- a claim that is not won changes nothing
    have hruns := tryClaim_transits id worker now n
    cases hr : (Call.tryClaim worker id now).perform n with
    | error e n' =>
      have hsame := (Runs.error hruns hr).2.1 hi
      rw [(call_error hr).1, heldBy_congr (congrArg Store.task hsame)] at h
      exact hdb h
    | ok b n' =>
      obtain ⟨hcall, hreply⟩ := call_ok hr
      rw [hcall] at h
      rcases (Runs.ok hruns hr).1 with ⟨-, hsame, -⟩ | ⟨rfl, -⟩
      · rw [heldBy_congr (congrArg Store.task hsame)] at h
        exact hdb h
      · exact hclaim ⟨now, rfl, hreply⟩
  · have hk := keeps_call hfair (fun now hn => hc ⟨now, hn⟩) hdb
    cases hr : c.perform n with
    | error e n' =>
      rw [(call_error hr).1] at h
      exact (hk.error hr).2 hi h
    | ok b n' =>
      rw [(call_ok hr).1] at h
      exact (hk.ok hr).1 h

theorem trivial_rowRules : RowRules (fun _ => True) fun _ => True where
  seq := fun _ _ _ => trivial
  conflict := fun _ _ => ⟨trivial, trivial⟩
  accept := fun _ _ _ _ _ _ _ _ _ _ _ => trivial
  retire := fun _ _ _ _ _ _ => trivial
  row := fun _ _ _ _ _ _ _ _ _ _ _ _ _ _ _ _ => trivial
  reparent := fun _ _ _ => trivial

theorem call_inTxn (c : Call) (hi : n.inTxn = false) : (n.call c).inTxn = false := by
  have hk : Keeps (fun _ => True) c.perform n := by
    cases c with
    | tryClaim worker id now => exact (tryClaim_transits id worker now n).keeps fun _ _ _ _ _ _ => trivial
    | renewLease worker id now => exact (renewLease_transits id now n).keeps fun _ _ _ _ _ _ => trivial
    | release id st next => exact (release_transits id st next n).keeps fun _ _ _ _ _ _ => trivial
    | settle worker id st next done fields =>
      exact (settle_transits id worker st next done fields n).keeps fun _ _ _ _ _ _ => trivial
    | rewrite doc stampRev newVersion =>
      exact keeps_bind (keeps_putArtifact trivial_rowRules fun _ _ => trivial)
        fun _ n' _ _ => keeps_pure _ n'
    | rewriteMany docs batch stampRev onUnordered =>
      exact keeps_bind (keeps_putMany trivial_rowRules batch onUnordered fun _ _ => trivial)
        fun _ n' _ _ => keeps_pure _ n'
    | delete id =>
      exact keeps_bind (keeps_deleteArtifact trivial_rowRules.toEdgeRules id true fun _ _ _ _ _ => trivial)
        fun _ n' _ _ => keeps_pure _ n'
  cases hr : c.perform n with
  | error e n' =>
    rw [(call_error hr).1]
    exact ((hk trivial).error hr).1.trans hi
  | ok b n' =>
    rw [(call_ok hr).1]
    exact ((hk trivial).ok hr).2.trans hi

/-! ### Runs -/

theorem callAll_append (n : Node) (cs ds : List Call) : n.callAll (cs ++ ds) = (n.callAll cs).callAll ds :=
  List.foldl_append

theorem callAll_concat (n : Node) (cs : List Call) (c : Call) :
    n.callAll (cs ++ [c]) = (n.callAll cs).call c := callAll_append n cs [c]

theorem callAll_inTxn : ∀ {n : Node}, n.inTxn = false → ∀ cs : List Call, (n.callAll cs).inTxn = false
  | _, hi, [] => hi
  | _, hi, c :: cs => callAll_inTxn (call_inTxn c hi) cs

theorem fairCalls_append : ∀ {n : Node} {cs ds : List Call},
    n.FairCalls (cs ++ ds) ↔ n.FairCalls cs ∧ (n.callAll cs).FairCalls ds
  | n, [], ds => by simp [Node.FairCalls, Node.callAll]
  | n, c :: cs, ds => by
    have ih := @fairCalls_append (n.call c) cs ds
    simp only [List.cons_append, Node.FairCalls, ih, and_assoc]
    rfl

/-- **Holding is having won.** -/
theorem heldBy_current (hi : n.inTxn = false) (h₀ : ¬n.db.HeldBy id worker) (calls : List Call) :
    n.FairCalls calls → (n.callAll calls).db.HeldBy id worker → n.Current calls id worker := by
  induction calls using List.reverseRecOn with
  | nil => exact fun _ h => absurd h h₀
  | append_singleton cs c ih =>
    intro hfair hheld
    obtain ⟨hcs, hc, -⟩ := fairCalls_append.mp hfair
    rw [callAll_concat] at hheld
    rcases heldBy_call hc (callAll_inTxn hi cs) hheld with h | ⟨now, rfl, hwon⟩
    · obtain ⟨before, now, since, rfl, hwon, hsince⟩ := ih hcs h
      refine ⟨before, now, since ++ [c], by simp, hwon, ?_⟩
      intro q hq
      rcases List.prefix_concat_iff.mp hq with rfl | hq
      · rw [← List.cons_append, ← List.append_assoc, callAll_concat]
        exact hheld
      · exact hsince q hq
    · refine ⟨cs, now, [], rfl, hwon, ?_⟩
      intro q hq
      rw [List.prefix_nil.mp hq, callAll_concat]
      exact hheld

theorem exists_turn {γ : Type} {P : List γ → Prop} (h₀ : ¬P []) :
    ∀ mid : List γ, P mid → ∃ q c q', mid = q ++ c :: q' ∧ ¬P q ∧ P (q ++ [c]) := by
  intro mid
  induction mid using List.reverseRecOn with
  | nil => exact fun h => absurd h h₀
  | append_singleton cs c ih =>
    intro h
    by_cases hcs : P cs
    · obtain ⟨q, c', q', rfl, hq, hq'⟩ := ih hcs
      exact ⟨q, c', q' ++ [c], by simp, hq, hq'⟩
    · exact ⟨cs, c, [], rfl, hcs, h⟩

theorem heldBy_not_pending (h : db.HeldBy id worker) : ¬db.Pending id := by
  obtain ⟨t, ht, hst, -⟩ := h
  rintro ⟨t', ht', hst'⟩
  rw [ht] at ht'
  cases ht'
  rw [hst] at hst'
  exact absurd hst' (by decide)

/-- **Leases are exclusive** along every fair run of calls from a fresh store. -/
theorem leases_exclusive (origin : Origin) (leaves : ℕ+) (calls : List Call)
    (hfair : (Node.fresh origin leaves).FairCalls calls) :
    Exclusive (Node.fresh origin leaves) calls := by
  have h₀ : ∀ id worker, ¬(Node.fresh origin leaves).db.HeldBy id worker := by
    rintro id worker ⟨t, ht, -⟩
    cases ht
  refine ⟨?_, ?_, ?_⟩
  · rintro before mid after worker worker' now now' id - hwon hwon'
    have hheld := (tryClaim_won hwon).2
    rw [← callAll_concat] at hheld
    have hpend := (tryClaim_won hwon').1
    exact exists_turn (P := fun q => ((Node.fresh origin leaves).callAll
      (before ++ .tryClaim worker id now :: q)).db.Pending id) (heldBy_not_pending hheld) mid hpend
  · rintro before after worker id toStatus nextRetryAt completedAt fields rfl hreply
    refine heldBy_current rfl (h₀ id worker) before (fairCalls_append.mp hfair).1 ?_
    obtain ⟨⟨hf, -⟩ | ⟨-, t, ht, ⟨hst, hcb⟩, -⟩, -⟩ := Runs.ok
      (settle_transits id worker toStatus nextRetryAt completedAt fields _) (reply_some hreply)
    · cases hf
    · refine ⟨t, ht, hst, ?_⟩
      cases hv : t.claimedBy with
      | str s =>
        rw [hv] at hcb
        simpa [Val.eqStr] using hcb
      | _ =>
        rw [hv] at hcb
        cases hcb
  · rintro before after worker id now rfl - hlost
    obtain ⟨hbefore, hcall, -⟩ := fairCalls_append.mp hfair
    -- a claimed row would carry the caller's name, and its claim would stand
    have hguard : ∀ t, ((Node.fresh origin leaves).callAll before).db.task.lookup id = some t →
        ¬t.status = "claimed" := by
      intro t ht hst
      exact hlost (heldBy_current rfl (h₀ id worker) before hbefore ⟨t, ht, hst, hcall t ht hst⟩)
    have hruns := renewLease_transits id now ((Node.fresh origin leaves).callAll before)
    cases hr : (Call.renewLease worker id now).perform ((Node.fresh origin leaves).callAll before) with
    | error e n' =>
      obtain ⟨-, -, t, ht, hst⟩ := Runs.error hruns hr
      exact absurd hst (hguard t ht)
    | ok b n' =>
      rcases (Runs.ok hruns hr).1 with ⟨rfl, -⟩ | ⟨-, t, ht, hst, -⟩
      · exact (call_ok hr).2
      · exact absurd hst (hguard t ht)

def fileTask : Call :=
  .rewrite [("id", .str "t"), ("content_type", .str "application/x-task"), ("status", .str "pending")]
    true false

def reclaimedRun : List Call :=
  [fileTask, .tryClaim "a" "t" "1", .release "t" "pending" none, .tryClaim "b" "t" "2"]

theorem lateRenewal_breaks_leases :
    ¬ ∀ calls : List Call, Exclusive (Node.fresh ⟨"here", by decide⟩ 4096) calls := by
  intro h
  have hrenew := (h (reclaimedRun ++ [.renewLease "a" "t" "3"])).renews reclaimedRun [] "a" "t" "3" rfl
  have hwon : (Node.fresh ⟨"here", by decide⟩ 4096).HasWon reclaimedRun "t" "a" := by
    refine ⟨[fileTask], "1", [.release "t" "pending" none, .tryClaim "b" "t" "2"], rfl, ?_⟩
    decide +kernel
  have hheld : (((Node.fresh ⟨"here", by decide⟩ 4096).callAll reclaimedRun).db.task.lookup "t").all
      (fun t => t.claimedBy.eqStr "a") = false := by decide +kernel
  have hlost : ¬(Node.fresh ⟨"here", by decide⟩ 4096).Current reclaimedRun "t" "a" := by
    rintro ⟨before, now, since, hcalls, -, hsince⟩
    obtain ⟨t, ht, -, hcb⟩ := hsince since List.prefix_rfl
    rw [← hcalls] at ht
    rw [ht] at hheld
    simp [hcb, Val.eqStr] at hheld
  have htold : ((Node.fresh ⟨"here", by decide⟩ 4096).callAll reclaimedRun).reply
      (.renewLease "a" "t" "3") = some true := by decide +kernel
  rw [hrenew hwon hlost] at htold
  cases htold

theorem leases_exclusive_reclaimed :
    (Node.fresh ⟨"here", by decide⟩ 4096).FairCalls reclaimedRun ∧
      Exclusive (Node.fresh ⟨"here", by decide⟩ 4096) reclaimedRun := by
  have hfair : (Node.fresh ⟨"here", by decide⟩ 4096).FairCalls reclaimedRun := by
    refine ⟨?_, trivial, trivial, trivial, trivial⟩
    intro d hd
    obtain rfl : d = [("id", .str "t"), ("content_type", .str "application/x-task"),
        ("status", .str "pending")] := List.mem_singleton.mp hd
    intro id worker _ hst
    simp [Doc.get, Doc.find?] at hst
  exact ⟨hfair, leases_exclusive ⟨"here", by decide⟩ 4096 reclaimedRun hfair⟩

end Mantle
