import Mathlib.Data.Rat.Defs
import Mathlib.Algebra.Order.Ring.Rat
import Mathlib.Data.List.Basic

/-!
# Mantle.Access.Memo — the memo of the grant verifier, under interleaved calls and revocations

Each entry is looked up under the lock, computed outside it, and stored under it.  A history variable counts the
mutations of the ledger, and every entry remembers how many there had been.
-/

namespace Mantle

abbrev MemoKey := String × String × String

structure MemoEntry (V : Type) where
  deadline : ℚ
  value : V
  /-- History: the mutations of the ledger before the grants were read. -/
  read : ℕ

structure GrantVerifier (L V : Type) where
  ttlS : ℚ
  /-- `resolver._grants_for`. -/
  grantsFor : L → String → String → V
  /-- `resolve_authorized_contexts`. -/
  contexts : L → String → String → String → V
  /-- The roots of what the grants allow for an action. -/
  rootsOf : L → V → String → V
  /-- A grant sits on the resource, or above it and still conducts. -/
  reaches : L → V → String → String → Bool
  /-- The principal is among the roots. -/
  member : V → String → Bool
  /-- The cap of `_memo_ttl` by the requester's own expiries. -/
  cap : L → ℚ → String → String → ℚ

inductive Answer (V : Type)
  | decided (b : Bool)
  | pairs (v : V)

/-- What a call still has to look up: resources to reach, a root, or the pairs. -/
inductive Plan
  | reach (target : String) (more : List String)
  | root (principal : String)
  | pairs

/-- Where a call stands.  `now` is the clock of its lookup. -/
inductive Phase (V : Type)
  | start
  | missed (now : ℚ)
  | innerMissed (now inner : ℚ)
  | innerRead (now inner : ℚ) (v : V) (read : ℕ)
  | innerTimed (now inner : ℚ) (v : V) (read : ℕ) (ttl : ℚ)
  | read (now : ℚ) (v : V) (read : ℕ)
  | timed (now : ℚ) (v : V) (read : ℕ) (ttl : ℚ)
  | answered (a : Answer V)

structure MemoCall (V : Type) where
  requester : String
  kind : String
  action : String
  plan : Plan
  phase : Phase V
  /-- History: the last mutation that was final for the requester when the call started. -/
  floor : ℕ
  /-- History: for each value the call decided from, the mutations before its grants were read. -/
  used : List ℕ

structure MemoState (L V : Type) where
  ledger : L
  clock : ℚ
  cache : MemoKey → Option (MemoEntry V)
  calls : List (MemoCall V)
  /-- How often the ledger was mutated. -/
  epoch : ℕ
  /-- Mutations whose invalidation has not run; `none` is everyone. -/
  pending : List (ℕ × Option String)
  /-- The last mutation whose invalidation of a principal has returned. -/
  final : String → ℕ

section Steps

variable {L V : Type} (R : GrantVerifier L V)

def GrantVerifier.memoTtl (l : L) (now : ℚ) (requester kind : String) : ℚ :=
  if R.ttlS ≤ 0 then R.ttlS else min R.ttlS (R.cap l now requester kind)

def MemoCall.grantsKey (c : MemoCall V) : MemoKey := (c.requester, c.kind, "\x00grants")

def MemoCall.key (c : MemoCall V) : MemoKey :=
  match c.plan with
  | .reach _ _ => c.grantsKey
  | .root _ => (c.requester, c.kind, "\x00roots:" ++ c.action)
  | .pairs => (c.requester, c.kind, c.action)

/-- An entry that has not lapsed; without a lifetime nothing is looked up. -/
def MemoState.lookup (s : MemoState L V) (k : MemoKey) : Option (MemoEntry V) :=
  if 0 < R.ttlS then (s.cache k).filter fun e => decide (s.clock < e.deadline) else none

/-- The call decides from a value; a resource that is not reached leaves the next one. -/
def MemoCall.conclude (c : MemoCall V) (l : L) (v : V) (read : ℕ) : MemoCall V :=
  match c.plan with
  | .reach target more =>
    if R.reaches l v target c.action then
      { c with phase := .answered (.decided true), used := read :: c.used }
    else
      match more with
      | [] => { c with phase := .answered (.decided false), used := read :: c.used }
      | t :: ts => { c with plan := .reach t ts, phase := .start, used := read :: c.used }
  | .root p => { c with phase := .answered (.decided (R.member v p)), used := read :: c.used }
  | .pairs => { c with phase := .answered (.pairs v), used := read :: c.used }

def MemoCall.advance (c : MemoCall V) (s : MemoState L V) : MemoCall V × Option (MemoKey × MemoEntry V) :=
  let stored := fun k now v read ttl =>
    if (0 : ℚ) < ttl then some (k, (⟨now + ttl, v, read⟩ : MemoEntry V)) else none
  match c.phase with
  | .start =>
    match s.lookup R c.key with
    | some e => (c.conclude R s.ledger e.value e.read, none)
    | none => ({ c with phase := .missed s.clock }, none)
  | .missed now =>
    match c.plan with
    | .reach _ _ => ({ c with phase := .read now (R.grantsFor s.ledger c.requester c.kind) s.epoch }, none)
    | .pairs =>
      ({ c with phase := .read now (R.contexts s.ledger c.requester c.kind c.action) s.epoch }, none)
    | .root _ =>
      -- the grants have an entry of their own
      match s.lookup R c.grantsKey with
      | some e => ({ c with phase := .read now (R.rootsOf s.ledger e.value c.action) e.read }, none)
      | none => ({ c with phase := .innerMissed now s.clock }, none)
  | .innerMissed now inner =>
    ({ c with phase := .innerRead now inner (R.grantsFor s.ledger c.requester c.kind) s.epoch }, none)
  | .innerRead now inner v read =>
    ({ c with phase := .innerTimed now inner v read (R.memoTtl s.ledger s.clock c.requester c.kind) }, none)
  | .innerTimed now inner v read ttl =>
    ({ c with phase := .read now (R.rootsOf s.ledger v c.action) read },
      stored c.grantsKey inner v read ttl)
  | .read now v read =>
    ({ c with phase := .timed now v read (R.memoTtl s.ledger s.clock c.requester c.kind) }, none)
  | .timed now v read ttl => (c.conclude R s.ledger v read, stored c.key now v read ttl)
  | .answered _ => (c, none)

/-- What `authorized` has to look up; its own key is in a principal's custody. -/
def authorizedPlan (requester principal : String) (collection artifact : Option String) : Option Plan :=
  if requester = principal then none
  else
    match collection.filter fun s => s ≠ "" with
    | some c => some (.reach c (artifact.filter fun s => s ≠ "").toList)
    | none => some (.root principal)

inductive MemoStep (L : Type)
  | authorized (requester kind principal : String) (collection artifact : Option String) (action : String)
  | contexts (requester kind action : String)
  /-- The call at this place takes its next step. -/
  | run (i : ℕ)
  | mutate (l : L) (whom : Option String)
  /-- The invalidation at this place in the list of those pending runs. -/
  | invalidate (i : ℕ)
  | tick (d : ℚ)

/-- A call that starts now. -/
def MemoState.begin (s : MemoState L V) (requester kind action : String) (plan : Plan) : MemoState L V :=
  { s with calls := s.calls ++ [⟨requester, kind, action, plan, .start, s.final requester, []⟩] }

/-- The principal is invalidated. -/
def concerns (whom : Option String) (p : String) : Bool := whom.all fun q => decide (p = q)

/-- `invalidate`. -/
def MemoState.drop (s : MemoState L V) (m : ℕ) (whom : Option String) : MemoState L V :=
  { s with
    cache := fun k => if concerns whom k.1 then none else s.cache k
    final := fun p => if concerns whom p then max (s.final p) m else s.final p }

def MemoState.step (s : MemoState L V) : MemoStep L → MemoState L V
  | .authorized requester kind principal collection artifact action =>
    match authorizedPlan requester principal collection artifact with
    | none => s
    | some plan => s.begin requester kind action plan
  | .contexts requester kind action => s.begin requester kind action .pairs
  | .run i =>
    match s.calls[i]? with
    | none => s
    | some c =>
      { s with
        calls := s.calls.set i (c.advance R s).1
        cache := match (c.advance R s).2 with
          | none => s.cache
          | some (k, e) => fun k' => if k' = k then some e else s.cache k' }
  | .mutate l whom =>
    { s with ledger := l, epoch := s.epoch + 1, pending := s.pending ++ [(s.epoch + 1, whom)] }
  | .invalidate i =>
    match s.pending[i]? with
    | none => s
    | some (m, whom) => { s.drop m whom with pending := s.pending.eraseIdx i }
  | .tick d => { s with clock := s.clock + d }

def MemoState.fresh (l : L) (clock : ℚ) : MemoState L V :=
  ⟨l, clock, fun _ => none, [], 0, [], fun _ => 0⟩

/-- Every call decides from grants read after every mutation that was final for its requester when it
started. -/
def MemoState.Final (s : MemoState L V) : Prop := ∀ c ∈ s.calls, ∀ e ∈ c.used, c.floor ≤ e

/-- The states a sequence of steps goes through, each with the step it takes. -/
def MemoState.Along (P : MemoState L V → MemoStep L → Prop) : MemoState L V → List (MemoStep L) → Prop
  | _, [] => True
  | s, a :: steps => P s a ∧ MemoState.Along P (s.step R a) steps

def MemoCall.storing (c : MemoCall V) : Option ℕ :=
  match c.phase with
  | .innerTimed _ _ _ read ttl => if 0 < ttl then some read else none
  | .timed _ _ read ttl => if 0 < ttl then some read else none
  | _ => none

/-- A call stores only what it read after every mutation that is final for its requester by now. -/
def MemoStep.Careful (s : MemoState L V) : MemoStep L → Prop
  | .run i => ∀ c, s.calls[i]? = some c → ∀ read, c.storing = some read → s.final c.requester ≤ read
  | _ => True

end Steps

/-! ### The invariant -/

section Invariant

variable {L V : Type} {R : GrantVerifier L V}

def MemoCall.holding (c : MemoCall V) : Option ℕ :=
  match c.phase with
  | .innerRead _ _ _ read => some read
  | .innerTimed _ _ _ read _ => some read
  | .read _ _ read => some read
  | .timed _ _ read _ => some read
  | _ => none

/-- A call started when what it must not look behind was final, and looked at nothing behind it. -/
structure MemoCall.Sound (c : MemoCall V) (s : MemoState L V) : Prop where
  floor : c.floor ≤ s.final c.requester
  holding : ∀ read, c.holding = some read → c.floor ≤ read
  used : ∀ read ∈ c.used, c.floor ≤ read

structure MemoState.Inv (s : MemoState L V) : Prop where
  /-- No entry of a principal is older than what is final for it. -/
  cache : ∀ k e, s.cache k = some e → s.final k.1 ≤ e.read
  final : ∀ p, s.final p ≤ s.epoch
  pending : ∀ m whom, (m, whom) ∈ s.pending → m ≤ s.epoch
  calls : ∀ c ∈ s.calls, c.Sound s

theorem MemoState.lookup_some {s : MemoState L V} {k : MemoKey} {e : MemoEntry V}
    (h : s.lookup R k = some e) : s.cache k = some e := by
  unfold MemoState.lookup at h
  split_ifs at h
  exact (Option.filter_eq_some_iff.mp h).1

theorem MemoCall.conclude_fields (c : MemoCall V) (l : L) (v : V) (read : ℕ) :
    (c.conclude R l v read).requester = c.requester ∧ (c.conclude R l v read).floor = c.floor ∧
      (c.conclude R l v read).holding = none ∧ (c.conclude R l v read).used = read :: c.used := by
  unfold MemoCall.conclude
  split
  · split_ifs
    · exact ⟨rfl, rfl, rfl, rfl⟩
    · split <;> exact ⟨rfl, rfl, rfl, rfl⟩
  · exact ⟨rfl, rfl, rfl, rfl⟩
  · exact ⟨rfl, rfl, rfl, rfl⟩

theorem MemoCall.Sound.conclude {c : MemoCall V} {s : MemoState L V} (h : c.Sound s) {v : V} {read : ℕ}
    (hr : c.floor ≤ read) : (c.conclude R s.ledger v read).Sound s := by
  obtain ⟨hreq, hfl, hhold, hused⟩ := @MemoCall.conclude_fields _ _ R c s.ledger v read
  refine ⟨by rw [hreq, hfl]; exact h.floor, ?_, ?_⟩
  · intro r hr'
    rw [hhold] at hr'
    cases hr'
  · intro r hr'
    rw [hused] at hr'
    rw [hfl]
    rcases List.mem_cons.mp hr' with rfl | hr'
    · exact hr
    · exact h.used r hr'

theorem MemoCall.Sound.phase {c : MemoCall V} {s : MemoState L V} (h : c.Sound s) {ph : Phase V}
    (hp : ∀ read, ({ c with phase := ph } : MemoCall V).holding = some read → c.floor ≤ read) :
    ({ c with phase := ph } : MemoCall V).Sound s := ⟨h.floor, hp, h.used⟩

theorem MemoState.Inv.floor_le {s : MemoState L V} (h : s.Inv) {c : MemoCall V} (hc : c.Sound s)
    {k : MemoKey} (hk : k.1 = c.requester) {e : MemoEntry V} (he : s.lookup R k = some e) :
    c.floor ≤ e.read := by
  have hcache := h.cache k e (MemoState.lookup_some he)
  rw [hk] at hcache
  exact hc.floor.trans hcache

theorem MemoCall.key_fst (c : MemoCall V) : c.key.1 = c.requester := by
  unfold MemoCall.key
  split <;> rfl

/-- **One step of a call** decides from nothing behind its floor, and changes neither who asks nor the
floor. -/
theorem MemoCall.Sound.advance {s : MemoState L V} (h : s.Inv) {c : MemoCall V} (hc : c.Sound s) :
    (c.advance R s).1.Sound s := by
  have hepoch : c.floor ≤ s.epoch := hc.floor.trans (h.final _)
  unfold MemoCall.advance
  dsimp only
  split
  · -- the lookup
    split
    · rename_i e he
      exact hc.conclude (h.floor_le hc c.key_fst he)
    · exact hc.phase fun read hr => by cases hr
  · split
    · refine hc.phase fun read hr => ?_
      cases hr
      exact hepoch
    · refine hc.phase fun read hr => ?_
      cases hr
      exact hepoch
    · split
      · rename_i e he
        refine hc.phase fun read hr => ?_
        cases hr
        exact h.floor_le hc rfl he
      · exact hc.phase fun read hr => by cases hr
  · refine hc.phase fun read hr => ?_
    cases hr
    exact hepoch
  · rename_i hph
    refine hc.phase fun read hr => ?_
    cases hr
    exact hc.holding _ (by unfold MemoCall.holding; rw [hph])
  · rename_i hph
    refine hc.phase fun read hr => ?_
    cases hr
    exact hc.holding _ (by unfold MemoCall.holding; rw [hph])
  · rename_i hph
    refine hc.phase fun read hr => ?_
    cases hr
    exact hc.holding _ (by unfold MemoCall.holding; rw [hph])
  · rename_i hph
    exact hc.conclude (hc.holding _ (by unfold MemoCall.holding; rw [hph]))
  · exact hc

theorem MemoCall.advance_stores {c : MemoCall V} {s : MemoState L V} {k : MemoKey} {e : MemoEntry V}
    (h : (c.advance R s).2 = some (k, e)) : k.1 = c.requester ∧ c.storing = some e.read := by
  unfold MemoCall.advance at h
  dsimp only at h
  unfold MemoCall.storing
  split at h
  · split at h <;> cases h
  · split at h
    · cases h
    · cases h
    · split at h <;> cases h
  · cases h
  · cases h
  · rename_i hph
    rw [hph]
    dsimp only at h ⊢
    split_ifs at h with ht
    cases h
    exact ⟨rfl, by rw [if_pos ht]⟩
  · cases h
  · rename_i hph
    rw [hph]
    dsimp only at h ⊢
    split_ifs at h with ht
    cases h
    exact ⟨c.key_fst, by rw [if_pos ht]⟩
  · cases h

/-! ### Steps and runs -/

theorem MemoCall.Sound.mono {c : MemoCall V} {s s' : MemoState L V} (h : c.Sound s)
    (hf : ∀ p, s.final p ≤ s'.final p) : c.Sound s' := ⟨h.floor.trans (hf _), h.holding, h.used⟩

theorem MemoState.Inv.begin {s : MemoState L V} (h : s.Inv) (requester kind action : String) (plan : Plan) :
    (s.begin requester kind action plan).Inv := by
  refine ⟨h.cache, h.final, h.pending, ?_⟩
  intro c hc
  rcases List.mem_append.mp hc with hc | hc
  · exact (h.calls c hc).mono fun _ => le_refl _
  · rw [List.mem_singleton] at hc
    subst hc
    refine ⟨le_refl _, ?_, ?_⟩
    · intro read hr
      cases hr
    · intro read hr
      cases hr

theorem MemoState.Inv.run {s : MemoState L V} (h : s.Inv) {i : ℕ}
    (hc : (MemoStep.run i : MemoStep L).Careful s) : (s.step R (.run i)).Inv := by
  unfold MemoState.step
  dsimp only
  cases hi : s.calls[i]? with
  | none => exact h
  | some c =>
    dsimp only
    have hsound := h.calls c (List.mem_of_getElem? hi)
    refine ⟨?_, h.final, h.pending, ?_⟩
    · intro k e hk
      cases hst : (c.advance R s).2 with
      | none =>
        rw [hst] at hk
        exact h.cache k e hk
      | some ke =>
        obtain ⟨k', e'⟩ := ke
        rw [hst] at hk
        dsimp only at hk
        split_ifs at hk with heq
        · -- the entry just stored
          cases hk
          subst heq
          obtain ⟨hreq, hstore⟩ := MemoCall.advance_stores hst
          have hfin : s.final c.requester ≤ e.read := hc c hi e.read hstore
          rwa [← hreq] at hfin
        · exact h.cache k e hk
    · intro d hd
      rcases List.mem_or_eq_of_mem_set hd with hd | rfl
      · exact (h.calls d hd).mono fun _ => le_refl _
      · exact (hsound.advance h).mono fun _ => le_refl _

theorem MemoState.Inv.invalidate {s : MemoState L V} (h : s.Inv) (i : ℕ) :
    (s.step R (.invalidate i)).Inv := by
  unfold MemoState.step
  dsimp only
  cases hi : s.pending[i]? with
  | none => exact h
  | some mw =>
    obtain ⟨m, whom⟩ := mw
    have hm : m ≤ s.epoch := h.pending m whom (List.mem_of_getElem? hi)
    have hgrow : ∀ p, s.final p ≤ (s.drop m whom).final p := by
      intro p
      change s.final p ≤ if concerns whom p then max (s.final p) m else s.final p
      split_ifs
      · exact le_max_left _ _
      · exact le_refl _
    refine ⟨?_, ?_, ?_, ?_⟩
    · intro k e hk
      change (if concerns whom k.1 then none else s.cache k) = some e at hk
      change (if concerns whom k.1 then max (s.final k.1) m else s.final k.1) ≤ e.read
      split_ifs at hk ⊢
      exact h.cache k e hk
    · intro p
      change (if concerns whom p then max (s.final p) m else s.final p) ≤ s.epoch
      split_ifs
      · exact max_le (h.final p) hm
      · exact h.final p
    · exact fun m' whom' hm' => h.pending m' whom' (List.mem_of_mem_eraseIdx hm')
    · exact fun c hc => (h.calls c hc).mono hgrow

theorem MemoState.Inv.mutate {s : MemoState L V} (h : s.Inv) (l : L) (whom : Option String) :
    (s.step R (.mutate l whom)).Inv := by
  refine ⟨h.cache, fun p => (h.final p).trans (Nat.le_succ _), ?_, ?_⟩
  · intro m whom' hm
    rcases List.mem_append.mp hm with hm | hm
    · exact (h.pending m whom' hm).trans (Nat.le_succ _)
    · rw [List.mem_singleton, Prod.mk.injEq] at hm
      exact hm.1.le
  · exact fun c hc => (h.calls c hc).mono fun _ => le_refl _

theorem MemoState.Inv.step {s : MemoState L V} (h : s.Inv) : ∀ {a : MemoStep L}, a.Careful s →
    (s.step R a).Inv
  | .authorized requester kind principal collection artifact action, _ => by
    unfold MemoState.step
    dsimp only
    cases authorizedPlan requester principal collection artifact with
    | none => exact h
    | some plan => exact h.begin requester kind action plan
  | .contexts requester kind action, _ => h.begin requester kind action .pairs
  | .run _, hc => h.run hc
  | .mutate l whom, _ => h.mutate l whom
  | .invalidate i, _ => h.invalidate i
  | .tick _, _ => ⟨h.cache, h.final, h.pending, fun c hc => (h.calls c hc).mono fun _ => le_refl _⟩

theorem MemoState.Inv.steps : ∀ {steps : List (MemoStep L)} {s : MemoState L V}, s.Inv →
    s.Along R (fun s a => a.Careful s) steps → (steps.foldl (MemoState.step R) s).Inv
  | [], _, h, _ => h
  | _ :: _, _, h, ha => (h.step ha.1).steps ha.2

end Invariant

/-- **Revocations are final** in every run in which no call stores what it read before a mutation that is
final for its requester by then. -/
theorem revocation_final {L V : Type} (R : GrantVerifier L V) (l : L) (clock : ℚ) (steps : List (MemoStep L))
    (hc : (MemoState.fresh l clock).Along R (fun s a => a.Careful s) steps) :
    (steps.foldl (MemoState.step R) (MemoState.fresh l clock)).Final := by
  have hstart : (MemoState.fresh l clock : MemoState L V).Inv := by
    refine ⟨?_, fun _ => le_refl _, ?_, ?_⟩
    · intro k e hk
      cases hk
    · intro m whom hm
      cases hm
    · intro c hc
      cases hc
  exact fun c hcall => ((hstart.steps hc).calls c hcall).used

def listVerifier : GrantVerifier (List String) (List String) where
  ttlS := 30
  grantsFor := fun l _ _ => l
  contexts := fun l _ _ _ => l
  rootsOf := fun _ v _ => v
  reaches := fun _ v target _ => decide (target ∈ v)
  member := fun v p => decide (p ∈ v)
  cap := fun _ _ _ _ => 30

def revokedRun : List (MemoStep (List String)) :=
  [.authorized "u" "user" "o" (some "c") none "read", .run 0, .run 0, .run 0, .run 0, .mutate [] (some "u"),
    .invalidate 0, .authorized "u" "user" "o" (some "c") none "read", .run 1, .run 1, .run 1, .run 1]

theorem revocation_final_revokedRun :
    (MemoState.fresh ["c"] 0).Along listVerifier (fun s a => a.Careful s) revokedRun ∧
    (revokedRun.foldl (MemoState.step listVerifier) (MemoState.fresh ["c"] 0)).Final ∧
    (revokedRun.foldl (MemoState.step listVerifier) (MemoState.fresh ["c"] 0)).calls.map
      (fun c => c.used) = [[0], [1]] := by
  have hstores : ∀ k < 12, ∀ c ∈ ((revokedRun.take k).foldl (MemoState.step listVerifier)
      (MemoState.fresh ["c"] 0)).calls, ∀ read ∈ c.storing,
      ((revokedRun.take k).foldl (MemoState.step listVerifier) (MemoState.fresh ["c"] 0)).final
        c.requester ≤ read := by
    decide +kernel
  have hrun : (MemoState.fresh ["c"] 0).Along listVerifier (fun s a => a.Careful s) revokedRun := by
    have hk : ∀ k < 12, ∀ i (c : MemoCall (List String)), ((revokedRun.take k).foldl (MemoState.step listVerifier)
        (MemoState.fresh ["c"] 0)).calls[i]? = some c → ∀ read, c.storing = some read →
        ((revokedRun.take k).foldl (MemoState.step listVerifier) (MemoState.fresh ["c"] 0)).final
          c.requester ≤ read :=
      fun k hk i c hc read hr => hstores k hk c (List.mem_of_getElem? hc) read hr
    exact ⟨trivial, hk 1 (by decide) 0, hk 2 (by decide) 0, hk 3 (by decide) 0, hk 4 (by decide) 0, trivial,
      trivial, trivial, hk 8 (by decide) 1, hk 9 (by decide) 1, hk 10 (by decide) 1, hk 11 (by decide) 1,
      trivial⟩
  exact ⟨hrun, revocation_final listVerifier ["c"] 0 revokedRun hrun, by decide +kernel⟩

def overtakenRun : List (MemoStep (List String)) :=
  [.authorized "u" "user" "o" (some "c") none "read", .run 0, .run 0, .run 0, .mutate [] (some "u"),
    .invalidate 0, .run 0, .authorized "u" "user" "o" (some "c") none "read", .run 1]

theorem overtakenRun_stale :
    ¬ ∀ (R : GrantVerifier (List String) (List String)) (l : List String) (clock : ℚ)
      (steps : List (MemoStep (List String))),
      (steps.foldl (MemoState.step R) (MemoState.fresh l clock)).Final := by
  intro h
  have hfinal := h listVerifier ["c"] 0 overtakenRun
  have hstale : ∃ c ∈ (overtakenRun.foldl (MemoState.step listVerifier) (MemoState.fresh ["c"] 0)).calls,
      ∃ e ∈ c.used, e < c.floor := by
    decide +kernel
  obtain ⟨c, hc, e, he, hlt⟩ := hstale
  exact absurd (hfinal c hc e he) (not_le.mpr hlt)

end Mantle
