import Mantle.Base.Copies
import Mantle.Base.Table

/-!
# Mantle.Content.Mirror — the mirror copies a node still owes (`services/mirror_drain.py`)

An upload whose mirror leg fails writes a pending task, and then the artifact's `content_cas_ref`.  A drain claims the
task, writes the object and settles it; several processes drain, and each can die.
-/

namespace Mantle

open Run

namespace Mirror

inductive Status
  | pending
  | claimed
  | done
  | dead
deriving DecidableEq, Repr

inductive DeadReason
  | superseded
  | permanent
deriving DecidableEq, Repr

/-- The task at `mirror_task_id(content_key)`; `shared` when it is under the shared pool's content type. -/
structure Task where
  shared : Bool
  ref : String
  status : Status
  attempts : ℕ
  claimedBy : Option String
  deadReason : Option DeadReason
deriving DecidableEq, Repr

/-- The document of `_record_mirror_pending`. -/
def Task.fresh (ref : String) : Task := ⟨false, ref, .pending, 0, none, none⟩

def Task.claim (t : Task) (worker : String) : Task := { t with status := .claimed, claimedBy := some worker }

def Task.release (t : Task) : Task := { t with status := .pending, claimedBy := none }

/-- The task put back under the drain's own content type. -/
def Task.adopt (t : Task) : Task := { t with shared := false }

/-- What one attempt comes to. -/
inductive Outcome
  | done
  | retry
  | superseded
  | dead
deriving DecidableEq, Repr

def Outcome.deadLetters (o : Outcome) (attempts : ℕ) : Bool :=
  match o with
  | .dead => true
  | .superseded => 1 ≤ attempts
  | .done | .retry => false

/-- `_settle_after`, on a row that is claimed by the attempt's worker; `attempts` are those of the task as it was
read. -/
def Task.settle (row : Task) (attempts : ℕ) : Outcome → Task
  | .done => { row with status := .done, claimedBy := none, attempts := attempts + 1 }
  | .superseded =>
    if 1 ≤ attempts then
      { row with status := .dead, claimedBy := none, attempts := attempts + 1, deadReason := some .superseded }
    else { row with status := .pending, claimedBy := none, attempts := attempts + 1 }
  | .dead => { row with status := .dead, claimedBy := none, attempts := attempts + 1, deadReason := some .permanent }
  | .retry => { row with status := .pending, claimedBy := none, attempts := attempts + 1 }

/-- An upload whose bytes are stored; `writing` until it has recorded the ref on the artifact. -/
structure Upload where
  key : String
  process : String
  writing : Bool

/-- How far an attempt has come. -/
inductive Stage
  | won
  | holds (task : Task)
  /-- The artifact records the task's ref. -/
  | checked (task : Task)
  | ended (task : Task) (outcome : Outcome)

def Stage.task : Stage → Option Task
  | .won => none
  | .holds t | .checked t | .ended t _ => some t

structure Attempt where
  worker : String
  key : String
  stage : Stage

/-- A task read by `adopt_shared_pool_tasks` and not yet put back. -/
structure Adoption where
  worker : String
  key : String
  task : Task

/-- What the object store answers a write. -/
inductive Reply
  | stored
  | transient
  | refused

/-- The artifacts, the pool and the processes of a node; `owed` are the refs whose copies were deferred and have not
been mirrored since. -/
structure State where
  artifact : String → Option (Option String)
  task : String → Option Task
  owed : List (String × String)
  known : List String
  upload : String → Option Upload
  alive : String → Bool
  listed : List (String × String)
  inFlight : List (String × String)
  attempt : ℕ → Option Attempt
  adopting : ℕ → Option Adoption

inductive Event
  | boot (process : String)
  | crash (process : String)
  /-- `put_bytes_encrypted` returns; `deferred` when the mirror leg failed and `on_mirror_deferred` ran. -/
  | store (ref process key : String) (deferred : Bool)
  /-- `_record_content_ref`. -/
  | record (ref : String)
  /-- The ref could not be recorded. -/
  | drop (ref : String)
  /-- An upload that the object store alone took. -/
  | mirrorOnly (key : String)
  /-- `_reclaim_own` finds the task claimed under the process's own id. -/
  | list (worker key : String)
  | release (worker key : String)
  | adopt (i : ℕ) (worker key : String)
  | adopted (i : ℕ)
  | claim (i : ℕ) (worker key : String)
  | read (i : ℕ)
  /-- `_find_artifact`; it answers none also when its reads fail. -/
  | look (i : ℕ) (found : Bool)
  | write (i : ℕ) (reply : Reply)
  /-- An unexpected exception, or no local tier, or a local read that failed. -/
  | failed (i : ℕ)
  | settle (i : ℕ)
  /-- The store fails outside of the attempt's own handlers. -/
  | abandon (i : ℕ)

namespace State

variable (s : State)

def putTask (key : String) (t : Task) : State := { s with task := Function.update s.task key (some t) }

def setAttempt (i : ℕ) (x : Attempt) : State := { s with attempt := Function.update s.attempt i (some x) }

/-- The attempt is over (`_in_flight.discard`). -/
def endAttempt (i : ℕ) (worker key : String) : State :=
  { s with attempt := Function.update s.attempt i none, inFlight := s.inFlight.filter (· ≠ (worker, key)) }

def setUpload (ref : String) (u : Upload) : State := { s with upload := Function.update s.upload ref (some u) }

/-- What dies with a process. -/
def crash (w : String) : State :=
  { s with
    alive := Function.update s.alive w false
    upload := fun r => (s.upload r).map fun u => if u.process = w then { u with writing := false } else u
    listed := s.listed.filter (·.1 ≠ w)
    inFlight := s.inFlight.filter (·.1 ≠ w)
    attempt := fun i => (s.attempt i).filter (·.worker ≠ w)
    adopting := fun i => (s.adopting i).filter (·.worker ≠ w) }

/-- The bytes are in the local store, and with `deferred` the task says that the object store lacks them. -/
def store (ref w key : String) (deferred : Bool) : State :=
  let stored := { s.setUpload ref ⟨key, w, true⟩ with known := ref :: s.known }
  if deferred then { stored.putTask key (Task.fresh ref) with owed := (key, ref) :: s.owed } else stored

def step : Event → State
  | .boot w => { s with alive := Function.update s.alive w true }
  | .crash w => s.crash w
  | .store ref w key deferred => if s.alive w = true ∧ ref ∉ s.known then s.store ref w key deferred else s
  | .record ref =>
    match s.upload ref with
    | some ⟨key, w, true⟩ =>
      { s.setUpload ref ⟨key, w, false⟩ with artifact := Function.update s.artifact key (some (some ref)) }
    | _ => s
  | .drop ref =>
    match s.upload ref with
    | some ⟨key, w, true⟩ => s.setUpload ref ⟨key, w, false⟩
    | _ => s
  | .mirrorOnly key => { s with artifact := Function.update s.artifact key (some none) }
  | .list w key =>
    match s.task key with
    | some t =>
      if s.alive w = true ∧ t.shared = false ∧ t.status = .claimed ∧ t.claimedBy = some w then
        { s with listed := (w, key) :: s.listed }
      else s
    | none => s
  | .release w key =>
    if (w, key) ∈ s.listed ∧ (w, key) ∉ s.inFlight then
      match s.task key with
      | some t =>
        if t.status = .claimed then { s.putTask key t.release with listed := s.listed.erase (w, key) } else s
      | none => s
    else s
  | .adopt i w key =>
    match s.task key with
    | some t =>
      if s.alive w = true ∧ t.shared = true ∧ (t.status = .pending ∨ t.status = .claimed) then
        { s with adopting := Function.update s.adopting i (some ⟨w, key, t⟩) }
      else s
    | none => s
  | .adopted i =>
    match s.adopting i with
    | some a => { s.putTask a.key a.task.adopt with adopting := Function.update s.adopting i none }
    | none => s
  | .claim i w key =>
    match s.attempt i, s.task key with
    | none, some t =>
      if s.alive w = true ∧ t.shared = false ∧ t.status = .pending then
        { (s.putTask key (t.claim w)).setAttempt i ⟨w, key, .won⟩ with inFlight := (w, key) :: s.inFlight }
      else s
    | _, _ => s
  | .read i =>
    match s.attempt i with
    | some ⟨w, key, .won⟩ =>
      match s.task key with
      | some t => s.setAttempt i ⟨w, key, .holds t⟩
      | none => s.endAttempt i w key
    | _ => s
  | .look i found =>
    match s.attempt i with
    | some ⟨w, key, .holds t⟩ =>
      match found, s.artifact key with
      | true, some ref =>
        if ref = some t.ref then s.setAttempt i ⟨w, key, .checked t⟩
        else s.setAttempt i ⟨w, key, .ended t .superseded⟩
      | _, _ => s.setAttempt i ⟨w, key, .ended t .dead⟩
    | _ => s
  | .write i reply =>
    match s.attempt i with
    | some ⟨w, key, .checked t⟩ =>
      match reply with
      | .stored =>
        { s.setAttempt i ⟨w, key, .ended t .done⟩ with owed := s.owed.filter (· ≠ (key, t.ref)) }
      | .transient => s.setAttempt i ⟨w, key, .ended t .retry⟩
      | .refused => s.setAttempt i ⟨w, key, .ended t .dead⟩
    | _ => s
  | .failed i =>
    match s.attempt i with
    | some ⟨w, key, .holds t⟩ | some ⟨w, key, .checked t⟩ => s.setAttempt i ⟨w, key, .ended t .retry⟩
    | _ => s
  | .settle i =>
    match s.attempt i with
    | some ⟨w, key, .ended t o⟩ =>
      match s.task key with
      | some row =>
        if row.status = .claimed ∧ row.claimedBy = some w then
          (s.putTask key (row.settle t.attempts o)).endAttempt i w key
        else s.endAttempt i w key
      | none => s.endAttempt i w key
    | _ => s
  | .abandon i =>
    match s.attempt i with
    | some x => s.endAttempt i x.worker x.key
    | none => s

def run (events : List Event) : State := events.foldl step s

/-- A node at rest: what its artifacts record, and the older tasks of the shared pool. -/
def start (artifacts : Table String (Option String)) (attempts : String → Option ℕ) : State where
  artifact := artifacts.lookup
  task := fun key => (attempts key).bind fun n =>
    (artifacts.lookup key).join.map fun ref => ⟨true, ref, .pending, n, none, none⟩
  owed := artifacts.toPairs.filterMap fun e => if (attempts e.1).isSome then e.2.map (e.1, ·) else none
  known := artifacts.toPairs.filterMap (·.2)
  upload := fun _ => none
  alive := fun _ => false
  listed := []
  inFlight := []
  attempt := fun _ => none
  adopting := fun _ => none

/-! ### What is owed and what is kept -/

/-- The artifact records a ref whose copy is owed. -/
def Owes (key ref : String) : Prop := s.artifact key = some (some ref) ∧ (key, ref) ∈ s.owed

/-- The upload of the ref has yet to record it. -/
def Writing (key ref : String) : Prop := ∃ u, s.upload ref = some u ∧ u.writing = true ∧ u.key = key

def Attempting (w key : String) : Prop := ∃ i x, s.attempt i = some x ∧ x.worker = w ∧ x.key = key

/-- A pass of the process returns the task to `pending`. -/
def Reclaims (w key : String) : Prop :=
  s.alive w = true ∧ ∃ t, ((s.step (.list w key)).step (.release w key)).task key = some t ∧ t.status = .pending

/-- The task is pending, or claimed by a live attempt, or by a process whose next pass returns it. -/
def Kept (key : String) : Prop :=
  ∃ t, s.task key = some t ∧ (t.status = .pending ∨
    t.status = .claimed ∧ ∃ w, t.claimedBy = some w ∧ (s.Attempting w key ∨ s.Reclaims w key))

/-- The copy of the content key is owed, or its task names an upload that has yet to record its ref. -/
def Owing (key : String) : Prop := (∃ ref, s.Owes key ref) ∨ ∃ t, s.task key = some t ∧ s.Writing key t.ref

/-- The event takes none of the turns that lose what is owed. -/
def Clear : Event → Prop
  -- no task of an owed copy is claimed by a process that dies, and no upload dies that an owed copy's task names
  | .crash w =>
    (∀ key t, s.task key = some t → t.status = .claimed → t.claimedBy = some w → ¬s.Owing key) ∧
      ∀ key t u ref, s.task key = some t → s.upload t.ref = some u → u.writing = true → u.process = w →
        u.key = key → ¬s.Owes key ref
  | .drop ref => ∀ u t ref', s.upload ref = some u → u.writing = true → s.task u.key = some t → t.ref = ref →
      ¬s.Owes u.key ref'
  -- uploads record their refs in the order in which they wrote the task
  | .record ref => ∀ u, s.upload ref = some u → u.writing = true → (u.key, ref) ∈ s.owed →
      ∃ t, s.task u.key = some t ∧ s.Writing u.key t.ref
  -- a process makes one attempt at a task at a time
  | .claim _ w key => ¬s.Attempting w key
  -- a dead letter names no ref that is owed, or that is still to be recorded
  | .settle i => ∀ w key t row o, s.attempt i = some ⟨w, key, .ended t o⟩ → o.deadLetters t.attempts = true →
      s.task key = some row → row.status = .claimed → row.claimedBy = some w →
      ¬s.Writing key t.ref ∧ ¬s.Owes key t.ref
  -- a task that is adopted has not changed since it was read
  | .adopted i => ∀ a, s.adopting i = some a → s.task a.key = some a.task ∨ s.task a.key = some a.task.adopt
  | _ => True

/-! ### What every state of a clear run keeps -/

/-- The task is one that a drain will still attempt. -/
def Open (t : Task) : Prop := t.status = .pending ∨ t.status = .claimed ∧ ∃ w, t.claimedBy = some w ∧ s.alive w = true

structure Sound : Prop where
  task_known : ∀ k t, s.task k = some t → t.ref ∈ s.known
  owed_known : ∀ k r, (k, r) ∈ s.owed → r ∈ s.known
  recorded_known : ∀ k r, s.artifact k = some (some r) → r ∈ s.known
  upload_known : ∀ r u, s.upload r = some u → r ∈ s.known
  /-- A recorded ref is not written again. -/
  recorded : ∀ k r, s.artifact k = some (some r) → ∀ k', ¬s.Writing k' r
  shared : ∀ k t, s.task k = some t → t.shared = true → t.status = .pending
  flying : ∀ w k, (w, k) ∈ s.inFlight → s.Attempting w k
  read_known : ∀ i x t, s.attempt i = some x → x.stage.task = some t → t.ref ∈ s.known
  /-- The ref that an attempt found recorded. -/
  looked : ∀ i x t, s.attempt i = some x → x.stage = .checked t ∨ x.stage = .ended t .done →
    ∀ k, ¬s.Writing k t.ref
  mirrored : ∀ i x t, s.attempt i = some x → x.stage = .ended t .done → (x.key, t.ref) ∉ s.owed
  /-- A task claimed by an attempt's worker is the one the attempt has read. -/
  own : ∀ i x t row, s.attempt i = some x → x.stage.task = some t → s.task x.key = some row →
    row.status = .claimed → row.claimedBy = some x.worker → t.ref = row.ref
  writing : ∀ k t, s.task k = some t → s.Writing k t.ref → s.Open t
  owes : ∀ k r, s.Owes k r → ∃ t, s.task k = some t ∧ s.Open t ∧ (t.ref = r ∨ s.Writing k t.ref)

namespace Sound

variable {i : ℕ} {k key r w : String}

variable {s}

variable {t : Task}

theorem open_of_owing (hs : s.Sound) (ht : s.task k = some t) (h : s.Owing k) : s.Open t := by
  rcases h with ⟨r, hr⟩ | ⟨t', ht', hw⟩
  · obtain ⟨t', ht', ho, -⟩ := hs.owes k r hr
    rw [ht] at ht'
    exact Option.some.inj ht' ▸ ho
  · rw [ht] at ht'
    obtain rfl := Option.some.inj ht'
    exact hs.writing k t ht hw

theorem kept (hs : s.Sound) (h : s.Owes k r) : s.Kept k := by
  obtain ⟨t, ht, ho, -⟩ := hs.owes k r h
  refine ⟨t, ht, ?_⟩
  rcases ho with hp | ⟨hc, w, hw, halive⟩
  · exact .inl hp
  refine .inr ⟨hc, w, hw, ?_⟩
  by_cases hfly : (w, k) ∈ s.inFlight
  · exact .inl (hs.flying w k hfly)
  · -- no attempt of the process is running, so its next pass takes the task back
    have hshared : t.shared = false := by
      by_contra hsh
      rw [hs.shared k t ht (by simpa using hsh)] at hc
      cases hc
    have hlist : s.step (.list w k) = { s with listed := (w, k) :: s.listed } := by
      simp only [step, ht, halive, hshared, hc, hw, and_self, if_true]
    refine .inr ⟨halive, t.release, ?_, rfl⟩
    rw [hlist]
    simp only [step, List.mem_cons, true_or, hfly, not_false_eq_true, and_self, if_true, ht, hc]
    exact Function.update_self ..

/-! ### The moves of a run -/

theorem retask (hs : s.Sound) {t' : Task} (ht : s.task k = some t) (href : t'.ref = t.ref)
    (hshared : t'.shared = true → t'.status = .pending) (hopen : s.Owing k → s.Open t')
    (hown : ∀ i x t₀, s.attempt i = some x → x.key = k → x.stage.task = some t₀ → t'.status = .claimed →
      t'.claimedBy = some x.worker → t₀.ref = t.ref) : (s.putTask k t').Sound := by
  have hcases : ∀ {k' : String} {x : Task}, (s.putTask k t').task k' = some x →
      k' = k ∧ x = t' ∨ k' ≠ k ∧ s.task k' = some x := by
    intro k' x hx
    by_cases hk : k' = k
    · subst hk
      have hself : (s.putTask k' t').task k' = some t' := Function.update_self ..
      rw [hself] at hx
      exact .inl ⟨rfl, (Option.some.inj hx).symm⟩
    · exact .inr ⟨hk, by rwa [show (s.putTask k t').task k' = s.task k' from Function.update_of_ne hk _ _] at hx⟩
  refine ⟨?_, hs.owed_known, hs.recorded_known, hs.upload_known, hs.recorded, ?_, hs.flying, hs.read_known,
    hs.looked, hs.mirrored, ?_, ?_, ?_⟩
  · intro k' x hx
    rcases hcases hx with ⟨rfl, rfl⟩ | ⟨-, hx⟩
    · rw [href]
      exact hs.task_known _ t ht
    · exact hs.task_known k' x hx
  · intro k' x hx
    rcases hcases hx with ⟨rfl, rfl⟩ | ⟨-, hx⟩
    · exact hshared
    · exact hs.shared k' x hx
  · intro i x t₀ row hi hstage hrow hc hw
    rcases hcases hrow with ⟨hk, rfl⟩ | ⟨-, hrow⟩
    · rw [href]
      exact hown i x t₀ hi hk hstage hc hw
    · exact hs.own i x t₀ row hi hstage hrow hc hw
  · intro k' x hx hw
    rcases hcases hx with ⟨rfl, rfl⟩ | ⟨-, hx⟩
    · rw [href] at hw
      exact hopen (.inr ⟨t, ht, hw⟩)
    · exact hs.writing k' x hx hw
  · intro k' r hr
    obtain ⟨x, hx, ho, hx'⟩ := hs.owes k' r hr
    by_cases hk : k' = k
    · subst hk
      rw [ht] at hx
      obtain rfl := Option.some.inj hx
      refine ⟨t', Function.update_self .., hopen (.inl ⟨r, hr⟩), ?_⟩
      rw [href]
      exact hx'
    · exact ⟨x, (Function.update_of_ne hk _ _).trans hx, ho, hx'⟩

theorem setAttempt (hs : s.Sound) {x x' : Attempt} (hi : s.attempt i = some x) (hw : x'.worker = x.worker)
    (hk : x'.key = x.key) (hknown : ∀ t, x'.stage.task = some t → t.ref ∈ s.known)
    (hlooked : ∀ t, x'.stage = .checked t ∨ x'.stage = .ended t .done → ∀ k, ¬s.Writing k t.ref)
    (hmirrored : ∀ t, x'.stage = .ended t .done → (x'.key, t.ref) ∉ s.owed)
    (hown : ∀ t row, x'.stage.task = some t → s.task x'.key = some row → row.status = .claimed →
      row.claimedBy = some x'.worker → t.ref = row.ref) : (s.setAttempt i x').Sound := by
  have hcases : ∀ {j : ℕ} {y : Attempt}, (s.setAttempt i x').attempt j = some y →
      y = x' ∨ s.attempt j = some y := by
    intro j y hy
    by_cases hj : j = i
    · subst hj
      rw [show (s.setAttempt j x').attempt j = some x' from Function.update_self ..] at hy
      exact .inl (Option.some.inj hy).symm
    · rw [show (s.setAttempt i x').attempt j = s.attempt j from Function.update_of_ne hj _ _] at hy
      exact .inr hy
  refine ⟨hs.task_known, hs.owed_known, hs.recorded_known, hs.upload_known, hs.recorded, hs.shared, ?_, ?_, ?_, ?_,
    ?_, hs.writing, hs.owes⟩
  · intro w k hmem
    obtain ⟨j, y, hj, hyw, hyk⟩ := hs.flying w k hmem
    by_cases hji : j = i
    · subst hji
      rw [hi] at hj
      obtain rfl := Option.some.inj hj
      exact ⟨j, x', Function.update_self .., hw.trans hyw, hk.trans hyk⟩
    · exact ⟨j, y, (Function.update_of_ne hji _ _).trans hj, hyw, hyk⟩
  · intro j y t hy
    rcases hcases hy with rfl | hy
    · exact hknown t
    · exact hs.read_known j y t hy
  · intro j y t hy
    rcases hcases hy with rfl | hy
    · exact hlooked t
    · exact hs.looked j y t hy
  · intro j y t hy
    rcases hcases hy with rfl | hy
    · exact hmirrored t
    · exact hs.mirrored j y t hy
  · intro j y t row hy
    rcases hcases hy with rfl | hy
    · exact hown t row
    · exact hs.own j y t row hy

theorem dropAttempts (hs : s.Sound) {attempt : ℕ → Option Attempt} {inFlight : List (String × String)}
    (hsub : ∀ i x, attempt i = some x → s.attempt i = some x)
    (hfly : ∀ w k, (w, k) ∈ inFlight → ∃ i x, attempt i = some x ∧ x.worker = w ∧ x.key = k) :
    ({ s with attempt := attempt, inFlight := inFlight } : State).Sound :=
  ⟨hs.task_known, hs.owed_known, hs.recorded_known, hs.upload_known, hs.recorded, hs.shared, hfly,
    fun i x t hi => hs.read_known i x t (hsub i x hi), fun i x t hi => hs.looked i x t (hsub i x hi),
    fun i x t hi => hs.mirrored i x t (hsub i x hi), fun i x t row hi => hs.own i x t row (hsub i x hi), hs.writing,
    hs.owes⟩

theorem endAttempt (hs : s.Sound) {x : Attempt} (hi : s.attempt i = some x) :
    (s.endAttempt i x.worker x.key).Sound := by
  refine hs.dropAttempts (fun j y hj => ?_) fun w k hmem => ?_
  · by_cases hji : j = i
    · subst hji
      rw [Function.update_self] at hj
      cases hj
    · rwa [Function.update_of_ne hji] at hj
  · obtain ⟨hmem, hne⟩ := List.mem_filter.mp hmem
    obtain ⟨j, y, hj, rfl, rfl⟩ := hs.flying w k hmem
    have hji : j ≠ i := by
      rintro rfl
      rw [hi] at hj
      obtain rfl := Option.some.inj hj
      simp at hne
    exact ⟨j, y, (Function.update_of_ne hji _ _).trans hj, rfl, rfl⟩

theorem boot (hs : s.Sound) (w : String) : (s.step (.boot w)).Sound := by
  have hopen : ∀ t, s.Open t → (s.step (.boot w)).Open t := by
    rintro t (hp | ⟨hc, v, hv, halive⟩)
    · exact .inl hp
    · refine .inr ⟨hc, v, hv, ?_⟩
      show Function.update s.alive w true v = true
      by_cases hvw : v = w
      · rw [hvw, Function.update_self]
      · rwa [Function.update_of_ne hvw]
  refine ⟨hs.task_known, hs.owed_known, hs.recorded_known, hs.upload_known, hs.recorded, hs.shared, hs.flying,
    hs.read_known, hs.looked, hs.mirrored, hs.own, fun k t ht hw => hopen t (hs.writing k t ht hw), ?_⟩
  intro k r hr
  obtain ⟨t, ht, ho, ht'⟩ := hs.owes k r hr
  exact ⟨t, ht, hopen t ho, ht'⟩

theorem writing_of_crash (h : (s.crash w).Writing k r) :
    ∃ u, s.upload r = some u ∧ u.writing = true ∧ u.key = k ∧ u.process ≠ w := by
  obtain ⟨u', hu', hwr, hk⟩ := h
  obtain ⟨u, hu, rfl⟩ := Option.map_eq_some_iff.mp hu'
  by_cases hp : u.process = w
  · rw [if_pos hp] at hwr
    cases hwr
  · rw [if_neg hp] at hwr hk
    exact ⟨u, hu, hwr, hk, hp⟩

theorem crash (hs : s.Sound) (hc : s.Clear (.crash w)) : (s.step (.crash w)).Sound := by
  obtain ⟨hclaims, huploads⟩ := hc
  have hwr : ∀ k r, (s.crash w).Writing k r → s.Writing k r := by
    intro k r h
    obtain ⟨u, hu, hwr, hk, -⟩ := writing_of_crash h
    exact ⟨u, hu, hwr, hk⟩
  have hattempt : ∀ {i x}, (s.crash w).attempt i = some x → s.attempt i = some x :=
    fun h => (Option.filter_eq_some_iff.mp h).1
  -- a task at which something is owed is not claimed by the process that dies
  have hopen : ∀ k t, s.task k = some t → s.Owing k → (s.crash w).Open t := by
    intro k t ht hor
    rcases hs.open_of_owing ht hor with hp | ⟨hst, v, hv, halive⟩
    · exact .inl hp
    · refine .inr ⟨hst, v, hv, ?_⟩
      have hne : v ≠ w := by
        rintro rfl
        exact hclaims k t ht hst hv hor
      exact (Function.update_of_ne hne _ _).trans halive
  refine ⟨hs.task_known, hs.owed_known, hs.recorded_known, ?_, fun k r h k' hw => hs.recorded k r h k' (hwr k' r hw),
    hs.shared, ?_, fun i x t hi => hs.read_known i x t (hattempt hi),
    fun i x t hi hst k hw => hs.looked i x t (hattempt hi) hst k (hwr k t.ref hw),
    fun i x t hi => hs.mirrored i x t (hattempt hi), fun i x t row hi => hs.own i x t row (hattempt hi), ?_, ?_⟩
  · intro r u hu
    obtain ⟨u', hu', -⟩ := Option.map_eq_some_iff.mp hu
    exact hs.upload_known r u' hu'
  · intro v k hmem
    obtain ⟨hmem, hne⟩ := List.mem_filter.mp hmem
    obtain ⟨i, x, hi, rfl, hk⟩ := hs.flying v k hmem
    exact ⟨i, x, Option.filter_eq_some_iff.mpr ⟨hi, hne⟩, rfl, hk⟩
  · exact fun k t ht hw => hopen k t ht (.inr ⟨t, ht, hwr k t.ref hw⟩)
  · intro k r hr
    obtain ⟨t, ht, -, ht'⟩ := hs.owes k r hr
    refine ⟨t, ht, hopen k t ht (.inl ⟨r, hr⟩), ht'.imp id ?_⟩
    rintro ⟨u, hu, hwu, hk⟩
    have hne : u.process ≠ w := fun hp => huploads k t u r ht hu hwu hp hk hr
    refine ⟨u, ?_, hwu, hk⟩
    show (s.upload t.ref).map _ = _
    rw [hu, Option.map_some, if_neg hne]

theorem writing_setUpload {b : Bool} {k' : String} (h : (s.setUpload r ⟨key, w, b⟩).Writing k k') :
    k' = r ∧ b = true ∧ k = key ∨ k' ≠ r ∧ s.Writing k k' := by
  obtain ⟨u, hu, hwr, hk⟩ := h
  by_cases hr : k' = r
  · subst hr
    rw [show (s.setUpload k' ⟨key, w, b⟩).upload k' = some ⟨key, w, b⟩ from Function.update_self ..] at hu
    obtain rfl := Option.some.inj hu
    exact .inl ⟨rfl, hwr, hk.symm⟩
  · rw [show (s.setUpload r ⟨key, w, b⟩).upload k' = s.upload k' from Function.update_of_ne hr _ _] at hu
    exact .inr ⟨hr, u, hu, hwr, hk⟩

theorem writing_setUpload_of_ne {k' : String} {b : Bool} (hr : k' ≠ r) (h : s.Writing k k') :
    (s.setUpload r ⟨key, w, b⟩).Writing k k' := by
  obtain ⟨u, hu, hwr, hk⟩ := h
  exact ⟨u, (Function.update_of_ne hr _ _).trans hu, hwr, hk⟩

theorem stored (hs : s.Sound) (hr : r ∉ s.known) (w key : String) :
    ({ s.setUpload r ⟨key, w, true⟩ with known := r :: s.known } : State).Sound := by
  have hmem : ∀ {x}, x ∈ s.known → x ∈ r :: s.known := fun h => List.mem_cons_of_mem _ h
  have hne : ∀ {x}, x ∈ s.known → x ≠ r := fun h he => hr (he ▸ h)
  have hwr : ∀ {k x}, x ∈ s.known → (s.setUpload r ⟨key, w, true⟩).Writing k x → s.Writing k x := by
    intro k x hx h
    rcases writing_setUpload h with ⟨he, -⟩ | ⟨-, h⟩
    · exact absurd he (hne hx)
    · exact h
  refine ⟨fun k t ht => hmem (hs.task_known k t ht), fun k x hx => hmem (hs.owed_known k x hx),
    fun k x hx => hmem (hs.recorded_known k x hx), ?_,
    fun k x hx k' hw => hs.recorded k x hx k' (hwr (hs.recorded_known k x hx) hw), hs.shared, hs.flying,
    fun i x t hi hst => hmem (hs.read_known i x t hi hst), ?_, hs.mirrored, hs.own,
    fun k t ht hw => hs.writing k t ht (hwr (hs.task_known k t ht) hw), ?_⟩
  · intro x u hu
    by_cases hx : x = r
    · exact hx ▸ List.mem_cons_self
    · rw [show (s.setUpload r ⟨key, w, true⟩).upload x = s.upload x from Function.update_of_ne hx _ _] at hu
      exact hmem (hs.upload_known x u hu)
  · intro i x t hi hst k hw
    have hread : x.stage.task = some t := by rcases hst with h | h <;> rw [h] <;> rfl
    exact hs.looked i x t hi hst k (hwr (hs.read_known i x t hi hread) hw)
  · intro k x hx
    obtain ⟨t, ht, ho, ht'⟩ := hs.owes k x hx
    exact ⟨t, ht, ho, ht'.imp id (writing_setUpload_of_ne (hne (hs.task_known k t ht)))⟩

theorem deferred (hs : s.Sound) (hr : r ∈ s.known)
    (hold : ∀ i x t, s.attempt i = some x →
    x.stage.task = some t → t.ref ≠ r) (hwr : s.Writing key r) :
    ({ s.putTask key (Task.fresh r) with owed := (key, r) :: s.owed } : State).Sound := by
  have hcases : ∀ {k : String} {x : Task}, (s.putTask key (Task.fresh r)).task k = some x →
      k = key ∧ x = Task.fresh r ∨ k ≠ key ∧ s.task k = some x := by
    intro k x hx
    by_cases hk : k = key
    · subst hk
      rw [show (s.putTask k (Task.fresh r)).task k = some (Task.fresh r) from Function.update_self ..] at hx
      exact .inl ⟨rfl, (Option.some.inj hx).symm⟩
    · exact .inr ⟨hk, by
        rwa [show (s.putTask key (Task.fresh r)).task k = s.task k from Function.update_of_ne hk _ _] at hx⟩
  refine ⟨?_, ?_, hs.recorded_known, hs.upload_known, hs.recorded, ?_, hs.flying, hs.read_known, hs.looked, ?_, ?_,
    ?_, ?_⟩
  · intro k x hx
    rcases hcases hx with ⟨-, rfl⟩ | ⟨-, hx⟩
    · exact hr
    · exact hs.task_known k x hx
  · intro k x hx
    rcases List.mem_cons.mp hx with he | hx
    · exact (Prod.mk.inj he).2 ▸ hr
    · exact hs.owed_known k x hx
  · intro k x hx
    rcases hcases hx with ⟨-, rfl⟩ | ⟨-, hx⟩
    · exact fun _ => rfl
    · exact hs.shared k x hx
  · intro i x t hi hst hmem
    rcases List.mem_cons.mp hmem with he | hmem
    · exact hold i x t hi (by rw [hst]; rfl) (Prod.mk.inj he).2
    · exact hs.mirrored i x t hi hst hmem
  · intro i x t row hi hst hrow hc
    rcases hcases hrow with ⟨-, rfl⟩ | ⟨-, hrow⟩
    · cases hc
    · exact hs.own i x t row hi hst hrow hc
  · intro k x hx hw
    rcases hcases hx with ⟨-, rfl⟩ | ⟨-, hx⟩
    · exact .inl rfl
    · exact hs.writing k x hx hw
  · intro k x hx
    by_cases hk : k = key
    · subst hk
      exact ⟨Task.fresh r, Function.update_self .., .inl rfl, .inr hwr⟩
    · have hmem : (k, x) ∈ s.owed := by
        rcases List.mem_cons.mp hx.2 with he | h
        · exact absurd (Prod.mk.inj he).1 hk
        · exact h
      obtain ⟨t, ht, ho, ht'⟩ := hs.owes k x ⟨hx.1, hmem⟩
      exact ⟨t, (Function.update_of_ne hk _ _).trans ht, ho, ht'⟩

theorem store (hs : s.Sound) (r w key : String) (d : Bool) : (s.step (.store r w key d)).Sound := by
  unfold step
  dsimp only
  split_ifs with hr
  · have hst := hs.stored hr.2 w key
    unfold State.store
    cases d with
    | false => exact hst
    | true =>
      refine hst.deferred List.mem_cons_self (fun i x t hi hread he => ?_) ?_
      · exact hr.2 (he ▸ hs.read_known i x t hi hread)
      · exact ⟨⟨key, w, true⟩, Function.update_self .., rfl, rfl⟩
  · exact hs

theorem uploaded (hs : s.Sound) (hu : s.upload r = some ⟨key, w, true⟩)
    (hnext : ∀ k t x, s.task k = some t → s.Owes k x → t.ref ≠ x → s.Writing k t.ref → t.ref ≠ r) :
    (s.setUpload r ⟨key, w, false⟩).Sound := by
  have hwr : ∀ {k x}, (s.setUpload r ⟨key, w, false⟩).Writing k x → s.Writing k x := by
    intro k x h
    rcases writing_setUpload h with ⟨-, hf, -⟩ | ⟨-, h⟩
    · cases hf
    · exact h
  refine ⟨hs.task_known, hs.owed_known, hs.recorded_known, ?_, fun k x hx k' hw => hs.recorded k x hx k' (hwr hw),
    hs.shared, hs.flying, hs.read_known, fun i x t hi hst k hw => hs.looked i x t hi hst k (hwr hw), hs.mirrored,
    hs.own, fun k t ht hw => hs.writing k t ht (hwr hw), ?_⟩
  · intro x u hx
    by_cases hxr : x = r
    · exact hxr ▸ hs.upload_known r _ hu
    · rw [show (s.setUpload r ⟨key, w, false⟩).upload x = s.upload x from Function.update_of_ne hxr _ _] at hx
      exact hs.upload_known x u hx
  · intro k x hx
    obtain ⟨t, ht, ho, ht'⟩ := hs.owes k x hx
    refine ⟨t, ht, ho, ?_⟩
    by_cases hxt : t.ref = x
    · exact .inl hxt
    · have hw := ht'.resolve_left hxt
      exact .inr (writing_setUpload_of_ne (hnext k t x ht hx hxt hw) hw)

theorem drop (hs : s.Sound) {r : String} (hc : s.Clear (.drop r)) : (s.step (.drop r)).Sound := by
  unfold step
  dsimp only
  split
  · next key w hu =>
    refine hs.uploaded hu fun k t x ht hx _ hw he => ?_
    obtain ⟨u, hu', -, hk⟩ := hw
    rw [he, hu] at hu'
    obtain rfl := Option.some.inj hu'
    obtain rfl := hk
    exact hc _ t x hu rfl ht he hx
  · exact hs

theorem record (hs : s.Sound) (hc : s.Clear (.record r)) : (s.step (.record r)).Sound := by
  unfold step
  dsimp only
  split
  · next key w hu =>
    have hrw : ∀ k, ¬(s.setUpload r ⟨key, w, false⟩).Writing k r := by
      intro k h
      rcases writing_setUpload h with ⟨-, hf, -⟩ | ⟨hne, -⟩
      · cases hf
      · exact hne rfl
    have hwr : ∀ {k x}, (s.setUpload r ⟨key, w, false⟩).Writing k x → s.Writing k x := by
      intro k x h
      rcases writing_setUpload h with ⟨-, hf, -⟩ | ⟨-, h⟩
      · cases hf
      · exact h
    have hartifact : ∀ {k x}, Function.update s.artifact key (some (some r)) k = some (some x) →
        k = key ∧ x = r ∨ k ≠ key ∧ s.artifact k = some (some x) := by
      intro k x hx
      by_cases hk : k = key
      · subst hk
        rw [Function.update_self] at hx
        exact .inl ⟨rfl, (Option.some.inj (Option.some.inj hx)).symm⟩
      · rw [Function.update_of_ne hk] at hx
        exact .inr ⟨hk, hx⟩
    refine ⟨hs.task_known, hs.owed_known, ?_, ?_, ?_, hs.shared, hs.flying, hs.read_known,
      fun i x t hi hst k hw => hs.looked i x t hi hst k (hwr hw), hs.mirrored, hs.own,
      fun k t ht hw => hs.writing k t ht (hwr hw), ?_⟩
    · intro k x hx
      rcases hartifact hx with ⟨-, rfl⟩ | ⟨-, hx⟩
      · exact hs.upload_known _ _ hu
      · exact hs.recorded_known k x hx
    · intro x u hx
      by_cases hxr : x = r
      · exact hxr ▸ hs.upload_known r _ hu
      · exact hs.upload_known x u ((Function.update_of_ne hxr _ _).symm.trans hx)
    · intro k x hx k' hw
      rcases hartifact hx with ⟨-, rfl⟩ | ⟨-, hx⟩
      · exact hrw k' hw
      · exact hs.recorded k x hx k' (hwr hw)
    · rintro k x ⟨hx, hmem⟩
      rcases hartifact hx with ⟨rfl, rfl⟩ | ⟨hk, hx⟩
      · -- the task names this upload, or one that will record after it
        obtain ⟨t, ht, hw⟩ := hc _ hu rfl hmem
        refine ⟨t, ht, hs.writing _ t ht hw, ?_⟩
        by_cases hxt : t.ref = x
        · exact .inl hxt
        · exact .inr (writing_setUpload_of_ne hxt hw)
      · obtain ⟨t, ht, ho, ht'⟩ := hs.owes k x ⟨hx, hmem⟩
        refine ⟨t, ht, ho, ht'.imp id fun hw => writing_setUpload_of_ne ?_ hw⟩
        rintro he
        obtain ⟨u, hu', -, hk'⟩ := hw
        rw [he, hu] at hu'
        obtain rfl := Option.some.inj hu'
        exact hk hk'.symm
  · exact hs

theorem mirrorOnly (hs : s.Sound) (key : String) : (s.step (.mirrorOnly key)).Sound := by
  have hartifact : ∀ {k x}, Function.update s.artifact key (some none) k = some (some x) →
      s.artifact k = some (some x) := by
    intro k x hx
    by_cases hk : k = key
    · subst hk
      rw [Function.update_self] at hx
      cases Option.some.inj hx
    · rwa [Function.update_of_ne hk] at hx
  exact ⟨hs.task_known, hs.owed_known, fun k x hx => hs.recorded_known k x (hartifact hx), hs.upload_known,
    fun k x hx => hs.recorded k x (hartifact hx), hs.shared, hs.flying, hs.read_known, hs.looked, hs.mirrored, hs.own,
    hs.writing, fun k x hx => hs.owes k x ⟨hartifact hx.1, hx.2⟩⟩

theorem aside (hs : s.Sound) (listed : List (String × String)) (adopting : ℕ → Option Adoption) :
    ({ s with listed := listed, adopting := adopting } : State).Sound :=
  ⟨hs.task_known, hs.owed_known, hs.recorded_known, hs.upload_known, hs.recorded, hs.shared, hs.flying, hs.read_known,
    hs.looked, hs.mirrored, hs.own, hs.writing, hs.owes⟩

theorem list (hs : s.Sound) (w k : String) : (s.step (.list w k)).Sound := by
  unfold step
  dsimp only
  split
  · split_ifs
    · exact hs.aside _ _
    · exact hs
  · exact hs

theorem release (hs : s.Sound) (w k : String) : (s.step (.release w k)).Sound := by
  unfold step
  dsimp only
  split_ifs
  · split
    · next t ht =>
      split_ifs with hc
      · have hput : (s.putTask k t.release).Sound :=
          hs.retask ht rfl (fun _ => rfl) (fun _ => .inl rfl) fun _ _ _ _ _ _ hst => nomatch hst
        exact hput.aside _ _
      · exact hs
    · exact hs
  · exact hs

theorem adopt (hs : s.Sound) (i : ℕ) (w k : String) : (s.step (.adopt i w k)).Sound := by
  unfold step
  dsimp only
  split
  · split_ifs
    · exact hs.aside _ _
    · exact hs
  · exact hs

theorem adopted (hs : s.Sound) (hc : s.Clear (.adopted i)) : (s.step (.adopted i)).Sound := by
  unfold step
  dsimp only
  split
  · next a ha =>
    have hput : ∀ t, s.task a.key = some t → a.task.adopt.ref = t.ref → a.task.adopt.status = t.status →
        a.task.adopt.claimedBy = t.claimedBy → (s.putTask a.key a.task.adopt).Sound := by
      intro t ht href hst hby
      refine hs.retask ht href (fun h => nomatch h) (fun hor => ?_) fun j x t₀ hj hk hread hcl hw => ?_
      · have ho := hs.open_of_owing ht hor
        unfold Open at ho ⊢
        rwa [hst, hby]
      · exact hs.own j x t₀ t hj hread (hk ▸ ht) (hst ▸ hcl) (hby ▸ hw)
    rcases hc a ha with ht | ht
    · exact (hput _ ht rfl rfl rfl).aside _ _
    · exact (hput _ ht rfl rfl rfl).aside _ _
  · exact hs

theorem claim (hs : s.Sound) (hc : s.Clear (.claim i w k)) :
    (s.step (.claim i w k)).Sound := by
  unfold step
  dsimp only
  split
  · next t hi ht =>
    split_ifs with hclaim
    · have hput : (s.putTask k (t.claim w)).Sound := by
        refine hs.retask ht rfl (fun h => ?_) (fun _ => .inr ⟨rfl, w, rfl, hclaim.1⟩) fun j x t₀ hj hk _ _ hw => ?_
        · have : t.shared = true := h
          rw [hclaim.2.1] at this
          cases this
        · exact absurd ⟨j, x, hj, (Option.some.inj hw).symm, hk⟩ hc
      have hnew : ∀ {j y}, Function.update s.attempt i (some ⟨w, k, .won⟩) j = some y →
          j = i ∧ y = ⟨w, k, .won⟩ ∨ s.attempt j = some y := by
        intro j y hy
        by_cases hj : j = i
        · subst hj
          rw [Function.update_self] at hy
          exact .inl ⟨rfl, (Option.some.inj hy).symm⟩
        · rw [Function.update_of_ne hj] at hy
          exact .inr hy
      refine ⟨hput.task_known, hput.owed_known, hput.recorded_known, hput.upload_known, hput.recorded, hput.shared, ?_,
        ?_, ?_, ?_, ?_, hput.writing, hput.owes⟩
      · intro v k' hmem
        rcases List.mem_cons.mp hmem with he | hmem
        · cases he
          exact ⟨i, ⟨w, k, .won⟩, Function.update_self .., rfl, rfl⟩
        · obtain ⟨j, y, hj, hy⟩ := hs.flying v k' hmem
          have hji : j ≠ i := by
            rintro rfl
            rw [hi] at hj
            cases hj
          exact ⟨j, y, (Function.update_of_ne hji _ _).trans hj, hy⟩
      · intro j y t' hy hread
        rcases hnew hy with ⟨-, rfl⟩ | hy
        · cases hread
        · exact hs.read_known j y t' hy hread
      · intro j y t' hy hst
        rcases hnew hy with ⟨-, rfl⟩ | hy
        · rcases hst with h | h <;> cases h
        · exact hs.looked j y t' hy hst
      · intro j y t' hy hst
        rcases hnew hy with ⟨-, rfl⟩ | hy
        · cases hst
        · exact hs.mirrored j y t' hy hst
      · intro j y t' row hy hread hrow hcl hby
        rcases hnew hy with ⟨-, rfl⟩ | hy
        · cases hread
        · exact hput.own j y t' row hy hread hrow hcl hby
    · exact hs
  · exact hs

theorem read (hs : s.Sound) (i : ℕ) : (s.step (.read i)).Sound := by
  unfold step
  dsimp only
  split
  · next w k hi =>
    split
    · next t ht =>
      refine hs.setAttempt hi rfl rfl (fun t' h => ?_) (fun t' h => ?_) (fun t' h => nomatch h) fun t' row h hrow _ _ => ?_
      · cases h
        exact hs.task_known k t ht
      · rcases h with h | h <;> cases h
      · cases h
        rw [show s.task k = some t from ht] at hrow
        exact congrArg Task.ref (Option.some.inj hrow)
    · exact hs.endAttempt hi
  · exact hs

theorem ended (hs : s.Sound) {st : Stage} (hi : s.attempt i = some ⟨w, k, st⟩) (hst : st.task = some t) {o : Outcome}
    (ho : o ≠ .done) : (s.setAttempt i ⟨w, k, .ended t o⟩).Sound := by
  refine hs.setAttempt hi rfl rfl (fun t' h => ?_) (fun t' h => ?_) (fun t' h => ?_) fun t' row h hrow hc hw => ?_
  · cases h
    exact hs.read_known i _ t hi hst
  · rcases h with h | h
    · cases h
    · exact absurd (Stage.ended.inj h).2 ho
  · exact absurd (Stage.ended.inj h).2 ho
  · cases h
    exact hs.own i _ t row hi hst hrow hc hw

theorem look (hs : s.Sound) (i : ℕ) (found : Bool) : (s.step (.look i found)).Sound := by
  unfold step
  dsimp only
  split
  · next w k t hi =>
    split
    · next ref _ hrec =>
      split_ifs with hr
      · subst hr
        refine hs.setAttempt hi rfl rfl (fun t' h => ?_) (fun t' h => ?_) (fun t' h => nomatch h)
          fun t' row h hrow hc hw => ?_
        · cases h
          exact hs.read_known i _ t hi rfl
        · rcases h with h | h
          · cases h
            exact hs.recorded k t.ref hrec
          · cases h
        · cases h
          exact hs.own i _ t row hi rfl hrow hc hw
      · exact hs.ended hi rfl (by decide)
    · exact hs.ended hi rfl (by decide)
  · exact hs

theorem write (hs : s.Sound) (i : ℕ) (reply : Reply) : (s.step (.write i reply)).Sound := by
  unfold step
  dsimp only
  split
  · next w k t hi =>
    split
    · -- the copy is no longer owed
      have hsub : ∀ {e}, e ∈ s.owed.filter (· ≠ (k, t.ref)) → e ∈ s.owed := fun h => (List.mem_filter.mp h).1
      have hless : ({ s with owed := s.owed.filter (· ≠ (k, t.ref)) } : State).Sound :=
        ⟨hs.task_known, fun k' r h => hs.owed_known k' r (hsub h), hs.recorded_known, hs.upload_known, hs.recorded,
          hs.shared, hs.flying, hs.read_known, hs.looked, fun j x t' hj hst h => hs.mirrored j x t' hj hst (hsub h),
          hs.own, hs.writing, fun k' r h => hs.owes k' r ⟨h.1, hsub h.2⟩⟩
      refine hless.setAttempt hi rfl rfl (fun t' h => ?_) (fun t' h => ?_) (fun t' h => ?_) fun t' row h hrow hc hw => ?_
      · cases h
        exact hs.read_known i _ t hi rfl
      · rcases h with h | h
        · cases h
        · cases h
          exact hs.looked i _ t hi (.inl rfl)
      · cases h
        simp
      · cases h
        exact hs.own i _ t row hi rfl hrow hc hw
    · exact hs.ended hi rfl (by decide)
    · exact hs.ended hi rfl (by decide)
  · exact hs

theorem failed (hs : s.Sound) (i : ℕ) : (s.step (.failed i)).Sound := by
  unfold step
  dsimp only
  split
  · next w k t hi => exact hs.ended hi rfl (by decide)
  · next w k t hi => exact hs.ended hi rfl (by decide)
  · exact hs

theorem abandon (hs : s.Sound) (i : ℕ) : (s.step (.abandon i)).Sound := by
  unfold step
  dsimp only
  split
  · next x hi => exact hs.endAttempt hi
  · exact hs

theorem settle_cases (row : Task) (n : ℕ) (o : Outcome) : (row.settle n o).ref = row.ref ∧
    (row.settle n o).shared = row.shared ∧ (row.settle n o).status ≠ .claimed ∧
    ((row.settle n o).status = .pending ∨ o = .done ∨ o.deadLetters n = true) := by
  cases o with
  | done => exact ⟨rfl, rfl, Status.noConfusion, .inr (.inl rfl)⟩
  | retry => exact ⟨rfl, rfl, Status.noConfusion, .inl rfl⟩
  | dead => exact ⟨rfl, rfl, Status.noConfusion, .inr (.inr rfl)⟩
  | superseded =>
    unfold Task.settle
    split_ifs with hn
    · exact ⟨rfl, rfl, Status.noConfusion, .inr (.inr (decide_eq_true hn))⟩
    · exact ⟨rfl, rfl, Status.noConfusion, .inl rfl⟩

theorem settle (hs : s.Sound) (hc : s.Clear (.settle i)) : (s.step (.settle i)).Sound := by
  unfold step
  dsimp only
  split
  · next w k t o hi =>
    split
    · next row hrow =>
      split_ifs with hown
      · obtain ⟨href, hshared, hst, hout⟩ := settle_cases row t.attempts o
        have hsame : t.ref = row.ref := hs.own i _ t row hi rfl hrow hown.1 hown.2
        -- nothing is owed at a task that leaves the pool
        have hend : ¬s.Writing k t.ref ∧ ¬s.Owes k t.ref → ¬s.Owing k := by
          rintro ⟨hnw, hno⟩ (⟨r, hr⟩ | ⟨t', ht', hw⟩)
          · obtain ⟨t', ht', -, hor⟩ := hs.owes k r hr
            rw [hrow] at ht'
            obtain rfl := Option.some.inj ht'
            rw [← hsame] at hor
            rcases hor with rfl | hw
            · exact hno hr
            · exact hnw hw
          · rw [hrow] at ht'
            obtain rfl := Option.some.inj ht'
            exact hnw (hsame ▸ hw)
        have hput : (s.putTask k (row.settle t.attempts o)).Sound := by
          refine hs.retask hrow href (fun h => ?_) (fun hor => ?_) fun _ _ _ _ _ _ h => absurd h hst
          · have hp := hs.shared k row hrow (hshared ▸ h)
            rw [hown.1] at hp
            cases hp
          · rcases hout with hp | rfl | hd
            · exact .inl hp
            · exact absurd hor (hend ⟨hs.looked i _ t hi (.inr rfl) k, fun h => hs.mirrored i _ t hi rfl h.2⟩)
            · exact absurd hor (hend (hc w k t row o hi hd hrow hown.1 hown.2))
        exact hput.endAttempt hi
      · exact hs.endAttempt hi
    · exact hs.endAttempt hi
  · exact hs

theorem step (hs : s.Sound) (e : Event) (hc : s.Clear e) : (s.step e).Sound := by
  cases e with
  | boot w => exact hs.boot w
  | crash w => exact hs.crash hc
  | store r w k d => exact hs.store r w k d
  | record r => exact hs.record hc
  | drop r => exact hs.drop hc
  | mirrorOnly k => exact hs.mirrorOnly k
  | list w k => exact hs.list w k
  | release w k => exact hs.release w k
  | adopt i w k => exact hs.adopt i w k
  | adopted i => exact hs.adopted hc
  | claim i w k => exact hs.claim hc
  | read i => exact hs.read i
  | look i found => exact hs.look i found
  | write i reply => exact hs.write i reply
  | failed i => exact hs.failed i
  | settle i => exact hs.settle hc
  | abandon i => exact hs.abandon i

theorem start (artifacts : Table String (Option String)) (attempts : String → Option ℕ) :
    (State.start artifacts attempts).Sound := by
  have hknown : ∀ k r, artifacts.lookup k = some (some r) → r ∈ artifacts.toPairs.filterMap (·.2) :=
    fun k r h => List.mem_filterMap.mpr ⟨(k, some r), Table.mem_toPairs.mpr h, rfl⟩
  have htask : ∀ {k t}, (State.start artifacts attempts).task k = some t →
      ∃ n, attempts k = some n ∧ artifacts.lookup k = some (some t.ref) ∧ t.status = .pending := by
    intro k t ht
    obtain ⟨n, hn, ht⟩ := Option.bind_eq_some_iff.mp ht
    obtain ⟨r, hr, rfl⟩ := Option.map_eq_some_iff.mp ht
    exact ⟨n, hn, Option.join_eq_some_iff.mp hr, rfl⟩
  have howed : ∀ {k r}, (k, r) ∈ (State.start artifacts attempts).owed →
      ∃ n, attempts k = some n ∧ artifacts.lookup k = some (some r) := by
    intro k r h
    obtain ⟨e, he, h⟩ := List.mem_filterMap.mp h
    split_ifs at h with hsome
    obtain ⟨n, hn⟩ := Option.isSome_iff_exists.mp hsome
    obtain ⟨r', hr', he'⟩ := Option.map_eq_some_iff.mp h
    cases he'
    exact ⟨n, hn, by rw [← hr']; exact Table.mem_toPairs.mp he⟩
  refine ⟨fun k t ht => ?_, fun k r h => ?_, hknown, (fun _ _ h => nomatch h), ?_, fun k t ht _ => ?_,
    (fun _ _ h => nomatch h), (fun _ _ _ h => nomatch h), (fun _ _ _ h => nomatch h), (fun _ _ _ h => nomatch h),
    (fun _ _ _ _ h => nomatch h), ?_, ?_⟩
  · obtain ⟨n, -, hr, -⟩ := htask ht
    exact hknown k t.ref hr
  · obtain ⟨n, -, hr⟩ := howed h
    exact hknown k r hr
  · rintro k r - k' ⟨u, hu, -⟩
    cases hu
  · obtain ⟨n, -, -, hp⟩ := htask ht
    exact hp
  · rintro k t - ⟨u, hu, -⟩
    cases hu
  · rintro k r ⟨-, h⟩
    obtain ⟨n, hn, hr⟩ := howed h
    refine ⟨⟨true, r, .pending, n, none, none⟩, ?_, .inl rfl, .inl rfl⟩
    show (attempts k).bind _ = _
    rw [hn, Option.bind_some, hr]
    rfl

end Sound

end State

/-- **Owed copies** keep their task, along a run that takes none of the losing turns. -/
theorem owed_copy_kept (artifacts : Table String (Option String)) (attempts : String → Option ℕ)
    (events : List Event) (hclear : Along State.step State.Clear (State.start artifacts attempts) events)
    (key ref : String) (howes : ((State.start artifacts attempts).run events).Owes key ref) :
    ((State.start artifacts attempts).run events).Kept key := by
  have hstart := State.Sound.start artifacts attempts
  have hs := along_inv (fun (s : State) e (hs : s.Sound) hc => hs.step e hc) events _ hstart hclear
  exact hs.kept howes

/-! ### A first upload -/

def lookedEarly : List Event :=
  [.boot "p", .store "r" "p" "x" true, .claim 0 "p" "x", .read 0, .look 0 true, .settle 0, .record "r"]

def lookedLate : List Event :=
  [.boot "p", .store "r" "p" "x" true, .record "r", .claim 0 "p" "x", .read 0, .look 0 true, .write 0 .transient,
    .settle 0]

theorem owed_copy_dead :
    ¬ ∀ (artifacts : Table String (Option String)) (attempts : String → Option ℕ) (events : List Event)
      (key ref : String), ((State.start artifacts attempts).run events).Owes key ref →
      ((State.start artifacts attempts).run events).Kept key := by
  intro h
  obtain ⟨t, ht, hkept⟩ := h ∅ (fun _ => none) lookedEarly "x" "r" ⟨rfl, by decide⟩
  have hdead : (((State.start ∅ fun _ => none).run lookedEarly).task "x").map (·.status) = some .dead := by decide
  rw [ht, Option.map_some, Option.some.injEq] at hdead
  rcases hkept with hp | ⟨hc, -⟩
  · rw [hdead] at hp
    cases hp
  · rw [hdead] at hc
    cases hc

theorem owed_copy_kept_lookedLate :
    Along State.step State.Clear (State.start ∅ fun _ => none) lookedLate ∧
    ((State.start ∅ fun _ => none).run lookedLate).Owes "x" "r" ∧
    ((State.start ∅ fun _ => none).run lookedLate).Kept "x" := by
  have hclear : Along State.step State.Clear (State.start ∅ fun _ => none) lookedLate := by
    refine ⟨trivial, trivial, ?_, ?_, trivial, trivial, trivial, ?_, trivial⟩
    · rintro u hu - -
      obtain rfl := Option.some.inj hu
      exact ⟨_, rfl, _, rfl, rfl, rfl⟩
    · rintro ⟨i, x, hi, -⟩
      cases hi
    · intro w key t row o hi hd
      obtain ⟨rfl, rfl, hst⟩ := Attempt.mk.inj (Option.some.inj hi)
      obtain ⟨rfl, rfl⟩ := Stage.ended.inj hst
      cases hd
  exact ⟨hclear, ⟨rfl, by decide⟩, owed_copy_kept ∅ (fun _ => none) lookedLate hclear "x" "r" ⟨rfl, by decide⟩⟩

end Mirror

end Mantle
