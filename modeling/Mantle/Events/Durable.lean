import Mantle.Events.Acks

/-!
# Mantle.Events.Durable — a durable subscription's sockets (`routers/events_router.py`)

A socket replays the log from the stored cursor and then forwards what its queue holds.  Replay serves in the order of
the log; the queue holds what arrived, in the order it arrived.
-/

namespace Mantle.Bus

open Run

/-! ### The bounded queue -/

inductive Overflow
  | dropOldest
  | dropNewest
  | disconnect
deriving DecidableEq, Repr

structure LiveSubscription where
  queue : List Event
  overflow : Overflow
  dropped : ℕ
  overflowed : Bool

/-- `LiveSubscription.offer`; no other producer runs between its two attempts. -/
def LiveSubscription.offer (maxsize : ℤ) (l : LiveSubscription) (e : Event) : LiveSubscription :=
  if l.overflowed then l
  else if (l.queue.length : ℤ) < max 1 maxsize then { l with queue := l.queue ++ [e] }
  else match l.overflow with
    | .dropNewest => { l with dropped := l.dropped + 1 }
    | .disconnect => { l with dropped := l.dropped + 1, overflowed := true }
    | .dropOldest => { l with queue := l.queue.tail ++ [e], dropped := l.dropped + 1 }

theorem mem_offer {maxsize : ℤ} {l : LiveSubscription} {e x : Event}
    (h : x ∈ (l.offer maxsize e).queue) : x ∈ l.queue ∨ x = e := by
  have happend : ∀ {xs : List Event}, (∀ y ∈ xs, y ∈ l.queue) → x ∈ xs ++ [e] → x ∈ l.queue ∨ x = e := by
    intro xs hxs hx
    exact (List.mem_append.mp hx).imp (hxs x) List.mem_singleton.mp
  unfold LiveSubscription.offer at h
  split_ifs at h
  · exact .inl h
  · exact happend (fun _ hy => hy) h
  · cases hl : l.overflow with
    | dropNewest =>
      rw [hl] at h
      exact .inl h
    | disconnect =>
      rw [hl] at h
      exact .inl h
    | dropOldest =>
      rw [hl] at h
      exact happend (fun _ => List.mem_of_mem_tail) h

/-! ### One socket -/

/-- The subscription's filter, `DEFAULT_QUEUE_MAX` and `_REPLAY_MAX_EVENTS`. -/
structure FeedConfig where
  filter : EventFilter
  queueMax : ℤ
  replayMax : ℤ

def replayBatch : ℤ := 200

/-- Replay is at work, with what is left of its batch; or the pump runs; or the pump has returned. -/
inductive Stage
  | replaying (batch : List Event) (served : ℤ)
  | live
  | closed

/-- `_Subscription`, and the cursor an acknowledgement is about to store. -/
structure Socket where
  cursor : Cursor
  live : LiveSubscription
  reportedDrops : ℕ
  stage : Stage
  acking : Option Cursor

/-- What the outside answers while one event is handled. -/
structure Turn where
  connected : Bool
  noticed : Bool
  visible : Bool
  delivered : Bool

def Socket.opened (cursor : Cursor) (overflow : Overflow) : Socket :=
  ⟨cursor, ⟨[], overflow, 0, false⟩, 0, .replaying [] 0, none⟩

/-- An event without an origin moves nothing. -/
def Cursor.passed (c : Cursor) (e : Event) : Cursor := if e.origin = "" then c else c.advanced e.origin e.seq

def Socket.alreadyServed (k : Socket) (e : Event) : Bool :=
  if e.origin = "" then false else decide (e.seq ≤ (k.cursor.toDict.lookup e.origin).getD 0)

/-- `_replay` between two batches: an empty page, or a read that raises, ends it, and so does the ceiling. -/
def Socket.readBatch (C : FeedConfig) (log : EventLog) (k : Socket) (ok : Bool) : Socket :=
  match k.stage with
  | .replaying [] served =>
    if ok && decide (served < C.replayMax) then
      match log.readSince k.cursor C.filter (min replayBatch (C.replayMax - served)) with
      | [] => { k with stage := .live }
      | batch => { k with stage := .replaying batch served }
    else { k with stage := .live }
  | _ => k

/-- `_replay` at the next event of its batch, and what it sends. -/
def Socket.replayNext (k : Socket) (t : Turn) : Socket × List Event :=
  match k.stage with
  | .replaying (e :: batch) served =>
    if !t.connected || (t.visible && !t.delivered) then ({ k with stage := .live }, [])
    else
      ({ k with cursor := k.cursor.passed e, stage := .replaying batch (served + 1) },
        if t.visible then [e] else [])
  | _ => (k, [])

/-- `_report_drops`: whether the subscription must be closed. -/
def Socket.closing (k : Socket) (t : Turn) : Bool :=
  decide (k.live.dropped ≠ k.reportedDrops) && (!t.noticed || k.live.overflowed)

/-- `_pump_subscription` at the next event of the queue, and what it sends. -/
def Socket.pump (k : Socket) (t : Turn) : Socket × List Event :=
  match k.stage, k.live.queue with
  | .live, e :: queue =>
    let taken := { k with live := { k.live with queue := queue } }
    if !t.connected then ({ taken with stage := .closed }, [])
    else
      let told := { taken with reportedDrops := k.live.dropped }
      if k.closing t then ({ told with stage := .closed }, [])
      else if k.alreadyServed e || !t.visible then (told, [])
      else if !t.delivered then ({ told with stage := .closed }, [])
      else ({ told with cursor := k.cursor.passed e }, [e])
  | _, _ => (k, [])

/-- The first half of `_persist_cursor`, of an acknowledgement that names no cursor: the position the socket has served,
joined into what is stored. -/
def Socket.ackLoad (stored : Cursor) (k : Socket) (allowed : Bool) : Socket :=
  match k.stage with
  | .replaying _ _ => k
  | _ => if allowed then { k with acking := some (stored.merged (k.cursor.merged k.cursor)) } else k

/-! ### The subscription -/

/-- The log, the stored cursor, the sockets, and what was sent on any of them. -/
structure Durable where
  log : EventLog
  stored : Cursor
  sockets : ℕ → Option Socket
  sent : List Event

def Durable.start (log : EventLog) (stored : Cursor) : Durable := ⟨log, stored, fun _ => none, []⟩

/-- A worker logs an event; a socket subscribes, is offered an event, takes a step, loads and saves an acknowledgement,
goes away. -/
inductive DurableEvent
  | append (origin : Origin) (body : EventBody)
  | connect (i : ℕ) (overflow : Overflow)
  | offer (i : ℕ) (e : Event)
  | readBatch (i : ℕ) (ok : Bool)
  | replayNext (i : ℕ) (t : Turn)
  | pump (i : ℕ) (t : Turn)
  | ackLoad (i : ℕ) (allowed : Bool)
  | ackSave (i : ℕ) (ok : Bool)
  | disconnect (i : ℕ)

namespace Durable

/-- A socket takes a step and sends. -/
def act (s : Durable) (i : ℕ) (g : Socket → Socket × List Event) : Durable :=
  match s.sockets i with
  | none => s
  | some k => { s with sockets := Function.update s.sockets i (some (g k).1), sent := s.sent ++ (g k).2 }

/-- What the bus may offer: events that match, and of those that carry an origin only logged ones. -/
def Offered (C : FeedConfig) (s : Durable) (e : Event) : Prop :=
  C.filter.matchesEvent e = true ∧ (e.origin = "" ∨ e ∈ s.log.events)

instance (C : FeedConfig) (s : Durable) (e : Event) : Decidable (s.Offered C e) :=
  inferInstanceAs (Decidable (_ ∧ _))

def step (C : FeedConfig) (s : Durable) : DurableEvent → Durable
  | .append origin body => { s with log := s.log.append origin body }
  | .connect i overflow =>
    match s.sockets i with
    | some _ => s
    | none => { s with sockets := Function.update s.sockets i (some (.opened s.stored overflow)) }
  | .offer i e =>
    if s.Offered C e then s.act i fun k => ({ k with live := k.live.offer C.queueMax e }, []) else s
  | .readBatch i ok => s.act i fun k => (k.readBatch C s.log ok, [])
  | .replayNext i t => s.act i (·.replayNext t)
  | .pump i t => s.act i (·.pump t)
  | .ackLoad i allowed => s.act i fun k => (k.ackLoad s.stored allowed, [])
  | .ackSave i ok =>
    match (s.sockets i).bind (·.acking) with
    | none => s
    | some c => { s.act i fun k => ({ k with acking := none }, []) with stored := if ok then c else s.stored }
  | .disconnect i => { s with sockets := Function.update s.sockets i none }

def run (C : FeedConfig) (s : Durable) (events : List DurableEvent) : Durable := events.foldl (step C) s

end Durable

/-! ### Positions -/

theorem alreadyServed_iff {k : Socket} {x : Event} (h : x.origin ≠ "") :
    k.alreadyServed x = true ↔ x.seq ≤ k.cursor.markOf x.origin := by
  unfold Socket.alreadyServed Cursor.markOf
  rw [if_neg h, decide_eq_true_eq]

/-- A mark of the tuple lies at or before the position of its origin. -/
def Cursor.Proper (c : Cursor) : Prop := ∀ o n, c.Gives o n → n ≤ c.markOf o

theorem proper_of (d : Table String ℤ) : (Cursor.of d).Proper := by
  rintro o n ⟨⟨o', m⟩, hm, rfl, hle⟩
  have hperm := List.perm_insertionSort (fun a b : String × ℤ => a.1 ≤ b.1) d.toPairs
  have hl := Table.mem_toPairs.mp (hperm.mem_iff.mp hm)
  unfold Cursor.markOf
  rw [lookup_of, hl]
  exact hle

theorem Cursor.Proper.foldl : ∀ (marks : List (String × ℤ)) {c : Cursor}, c.Proper →
    (marks.foldl (fun c m => c.advanced m.1 m.2) c).Proper
  | [], _, h => h
  | _ :: marks, _, _ => Cursor.Proper.foldl marks (proper_of _)

theorem le_markOf_passed {c : Cursor} {e x : Event} (he : e.origin ≠ "") :
    x.seq ≤ (c.passed e).markOf x.origin ↔
      x.seq ≤ c.markOf x.origin ∨ (x.origin = e.origin ∧ x.seq ≤ e.seq) := by
  unfold Cursor.passed
  rw [if_neg he, markOf_advanced]
  by_cases ho : x.origin = e.origin
  · rw [if_pos ho, le_max_iff, and_iff_right ho]
    exact or_comm
  · rw [if_neg ho, or_iff_left fun h => ho h.1]

theorem le_markOf_of_behind {c : Cursor} {x : Event} (h : c.Behind x) : x.seq ≤ c.markOf x.origin := by
  obtain ⟨m, hm, hle⟩ := h
  unfold Cursor.markOf
  rw [Option.mem_def.mp hm]
  exact hle

theorem EventLog.origin_ne {log : EventLog} {e : Event} (h : e ∈ log.events) : e.origin ≠ "" :=
  (log.named _ (EventLog.mem_keys h)).1

theorem EventLog.eq_of_key {log : EventLog} {a b : Event} (ha : a ∈ log.events) (hb : b ∈ log.events)
    (ho : a.origin = b.origin) (hseq : a.seq = b.seq) : a = b := by
  have hrow := EventLog.mem_events.mp ha
  rw [ho, hseq, EventLog.mem_events.mp hb] at hrow
  obtain ⟨o, n, x⟩ := a
  obtain ⟨o', n', x'⟩ := b
  simp only at ho hseq hrow
  rw [ho, hseq, Option.some.inj hrow]

/-! ### What is owed -/

section Owed

variable (C : FeedConfig) (readable : Event → Bool) (init : Cursor)

/-- A logged event that matches, is readable and lies after the starting cursor. -/
def Durable.Owes (s : Durable) (x : Event) : Prop :=
  x ∈ s.log.events ∧ C.filter.matchesEvent x = true ∧ readable x = true ∧ init.markOf x.origin < x.seq

/-- The stored position hides nothing unsent, and what a socket takes for served was sent. -/
def Durable.Holds (s : Durable) : Prop :=
  (∀ x, s.Owes C readable init x → x.seq ≤ s.stored.markOf x.origin → x ∈ s.sent) ∧
  ∀ i k, s.sockets i = some k → ∀ x, s.Owes C readable init x → k.alreadyServed x = true → x ∈ s.sent

/-- Whenever the reader is asked about a readable event, the answer is yes. -/
def Durable.Honest (s : Durable) : DurableEvent → Prop
  | .replayNext i t => ∀ k, s.sockets i = some k → ∀ e batch served, k.stage = .replaying (e :: batch) served →
      readable e = true → t.visible = true
  | .pump i t => ∀ k, s.sockets i = some k → ∀ e ∈ k.live.queue.head?, readable e = true → t.visible = true
  | _ => True

def Socket.Forwards (k : Socket) (t : Turn) (e : Event) : Prop :=
  k.stage = .live ∧ e ∈ k.live.queue.head? ∧ t.connected = true ∧ k.closing t = false ∧
    k.alreadyServed e = false ∧ t.visible = true ∧ t.delivered = true

/-- When the pump forwards a logged event, what is owed below it on its origin has been sent. -/
def Durable.InOrder (s : Durable) : DurableEvent → Prop
  | .pump i t => ∀ k, s.sockets i = some k → ∀ e, k.Forwards t e → e.origin ≠ "" →
      ∀ x, s.Owes C readable init x → x.origin = e.origin → x.seq < e.seq → x ∈ s.sent
  | _ => True

/-- A position reaches no further than the starting cursor and the log, and all it owes up to there was sent. -/
structure Durable.Covers (s : Durable) (c : Cursor) : Prop where
  proper : c.Proper
  reached : ∀ x : Event, 0 < x.seq → x.seq ≤ c.markOf x.origin →
    x.seq ≤ init.markOf x.origin ∨ x.UpTo s.log.events
  served : ∀ x, s.Owes C readable init x → x.seq ≤ c.markOf x.origin → x ∈ s.sent

/-- What is left of a page: in the log's order, and with every match up to where it reaches that lies after
the position. -/
structure Durable.Ahead (s : Durable) (c : Cursor) (batch : List Event) : Prop where
  sorted : batch.Pairwise fun a b => a.key ≤ b.key
  logged : ∀ e ∈ batch, e ∈ s.log.events
  closed : ∀ e ∈ batch, ∀ x ∈ s.log.events, C.filter.matchesEvent x = true → x.origin = e.origin →
    x.seq ≤ e.seq → c.markOf x.origin < x.seq → x ∈ batch

structure Durable.SocketSound (s : Durable) (k : Socket) : Prop where
  cursor : s.Covers C readable init k.cursor
  acking : ∀ c ∈ k.acking, s.Covers C readable init c
  queued : ∀ e ∈ k.live.queue, e.origin = "" ∨ e ∈ s.log.events
  batch : ∀ batch served, k.stage = .replaying batch served → s.Ahead C k.cursor batch

structure Durable.Sound (s : Durable) : Prop where
  stored : s.Covers C readable init s.stored
  sockets : ∀ i k, s.sockets i = some k → s.SocketSound C readable init k

end Owed

variable {C : FeedConfig} {readable : Event → Bool} {init : Cursor} {s s' : Durable} {c d : Cursor}
  {k : Socket} {e x : Event}

namespace Durable

variable {i : ℕ}

theorem Covers.congr (h : s.Covers C readable init c) (hlog : s'.log = s.log) (hsent : s.sent ⊆ s'.sent) :
    s'.Covers C readable init c where
  proper := h.proper
  reached := by
    rw [hlog]
    exact h.reached
  served := by
    intro x hx hle
    unfold Owes at hx
    rw [hlog] at hx
    exact hsent (h.served x hx hle)

theorem Covers.append (h : s.Covers C readable init c) (origin : Origin) (body : EventBody) :
    ({ s with log := s.log.append origin body } : Durable).Covers C readable init c where
  proper := h.proper
  reached := by
    intro x hpos hle
    refine (h.reached x hpos hle).imp_right ?_
    rintro ⟨b, hb, hbx⟩
    exact ⟨b, EventLog.mem_append.mpr (.inr hb), hbx⟩
  served := by
    rintro x ⟨hx, hm, hr, hafter⟩ hle
    rcases EventLog.mem_append.mp hx with rfl | hx
    · have hpos : 0 < s.log.lastSeq origin.val + 1 := by
        have := s.log.lastSeq_nonneg origin.val
        omega
      rcases h.reached _ hpos hle with hinit | ⟨b, hb, ho, hle'⟩
      · exact absurd hafter (not_lt.mpr hinit)
      · have := EventLog.seq_le_lastSeq hb
        rw [← ho] at this
        simp only at this hle'
        omega
    · exact h.served x ⟨hx, hm, hr, hafter⟩ hle

theorem Covers.passed (h : s.Covers C readable init c) (he : e.origin = "" ∨ e ∈ s.log.events)
    (hbelow : ∀ x, s.Owes C readable init x → x.origin = e.origin → x.seq ≤ e.seq →
      c.markOf x.origin < x.seq → x ∈ s.sent) :
    s.Covers C readable init (c.passed e) := by
  by_cases ho : e.origin = ""
  · unfold Cursor.passed
    rw [if_pos ho]
    exact h
  have hlogged := he.resolve_left ho
  refine ⟨?_, ?_, ?_⟩
  · unfold Cursor.passed
    rw [if_neg ho]
    exact proper_of _
  · intro x hpos hle
    rcases (le_markOf_passed ho).mp hle with hle | ⟨hxo, hle⟩
    · exact h.reached x hpos hle
    · exact .inr ⟨e, hlogged, hxo, hle⟩
  · intro x hx hle
    by_cases hc : x.seq ≤ c.markOf x.origin
    · exact h.served x hx hc
    · obtain ⟨hxo, hle⟩ := ((le_markOf_passed ho).mp hle).resolve_left hc
      exact hbelow x hx hxo hle (not_le.mp hc)

theorem Covers.merged (hc : s.Covers C readable init c) (hd : s.Covers C readable init d) :
    s.Covers C readable init (c.merged d) where
  proper := Cursor.Proper.foldl d.marks hc.proper
  reached := by
    intro x hpos hle
    rcases le_markOf_merged.mp hle with hle | hg
    · exact hc.reached x hpos hle
    · exact hd.reached x hpos (hd.proper _ _ hg)
  served := by
    intro x hx hle
    rcases le_markOf_merged.mp hle with hle | hg
    · exact hc.served x hx hle
    · exact hd.served x hx (hd.proper _ _ hg)

theorem Ahead.append {batch : List Event} (h : s.Ahead C c batch) (origin : Origin) (body : EventBody) :
    ({ s with log := s.log.append origin body } : Durable).Ahead C c batch where
  sorted := h.sorted
  logged := fun e he => EventLog.mem_append.mpr (.inr (h.logged e he))
  closed := by
    intro e he x hx hm ho hle hc
    rcases EventLog.mem_append.mp hx with rfl | hx
    · have := EventLog.seq_le_lastSeq (h.logged e he)
      rw [← ho] at this
      simp only at this hle
      omega
    · exact h.closed e he x hx hm ho hle hc

theorem SocketSound.congr (h : s.SocketSound C readable init k) (hlog : s'.log = s.log)
    (hsent : s.sent ⊆ s'.sent) : s'.SocketSound C readable init k where
  cursor := h.cursor.congr hlog hsent
  acking := fun c hc => (h.acking c hc).congr hlog hsent
  queued := by
    rw [hlog]
    exact h.queued
  batch := by
    intro batch served hk
    obtain ⟨hsorted, hlogged, hclosed⟩ := h.batch batch served hk
    refine ⟨hsorted, ?_, ?_⟩
    · rw [hlog]
      exact hlogged
    · rw [hlog]
      exact hclosed

/-! ### One step -/

theorem sockets_act {g : Socket → Socket × List Event} (hk : s.sockets i = some k) :
    s.act i g =
      { s with sockets := Function.update s.sockets i (some (g k).1), sent := s.sent ++ (g k).2 } := by
  unfold act
  rw [hk]

theorem sockets_update {sockets : ℕ → Option Socket} {P : Socket → Prop} {v : Option Socket}
    (hold : ∀ j k, sockets j = some k → P k) (hnew : ∀ k, v = some k → P k) :
    ∀ j k, Function.update sockets i v j = some k → P k := by
  intro j k hk
  by_cases hj : j = i
  · subst hj
    rw [Function.update_self] at hk
    exact hnew k hk
  · rw [Function.update_of_ne hj] at hk
    exact hold j k hk

theorem Sound.act (h : s.Sound C readable init) {g : Socket → Socket × List Event}
    (hg : ∀ k, s.sockets i = some k → (s.act i g).SocketSound C readable init (g k).1) :
    (s.act i g).Sound C readable init := by
  cases hk : s.sockets i with
  | none =>
    unfold Durable.act
    rw [hk]
    exact h
  | some k =>
    have hgk := hg k hk
    rw [sockets_act hk] at hgk ⊢
    refine ⟨h.stored.congr rfl (List.subset_append_left _ _), sockets_update ?_ ?_⟩
    · exact fun j k' hk' => (h.sockets j k' hk').congr rfl (List.subset_append_left _ _)
    · rintro k' hk'
      rw [← Option.some.inj hk']
      exact hgk

theorem log_act (i : ℕ) (g : Socket → Socket × List Event) : (s.act i g).log = s.log := by
  unfold act
  cases s.sockets i <;> rfl

theorem sent_act (i : ℕ) (g : Socket → Socket × List Event) : s.sent ⊆ (s.act i g).sent := by
  unfold act
  cases s.sockets i with
  | none => exact fun _ h => h
  | some k => exact List.subset_append_left _ _

theorem Sound.actQuietly (h : s.Sound C readable init) {g : Socket → Socket}
    (hg : ∀ k, s.sockets i = some k → s.SocketSound C readable init (g k)) :
    (s.act i fun k => (g k, [])).Sound C readable init :=
  h.act fun k hk => (hg k hk).congr (log_act i _) (sent_act i _)

theorem Sound.append (h : s.Sound C readable init) (origin : Origin) (body : EventBody) :
    (s.step C (.append origin body)).Sound C readable init where
  stored := h.stored.append origin body
  sockets := by
    intro i k hk
    have hsound := h.sockets i k hk
    refine ⟨hsound.cursor.append origin body, fun c hc => (hsound.acking c hc).append origin body, ?_, ?_⟩
    · exact fun e he => (hsound.queued e he).imp_right fun he => EventLog.mem_append.mpr (.inr he)
    · exact fun batch served hb => (hsound.batch batch served hb).append origin body

theorem Sound.connect (h : s.Sound C readable init) (i : ℕ) (overflow : Overflow) :
    (s.step C (.connect i overflow)).Sound C readable init := by
  unfold step
  dsimp only
  cases hi : s.sockets i with
  | some k => exact h
  | none =>
    refine ⟨h.stored.congr rfl (List.Subset.refl _), sockets_update ?_ ?_⟩
    · exact fun j k hk => (h.sockets j k hk).congr rfl (List.Subset.refl _)
    · rintro k hk
      rw [← Option.some.inj hk]
      refine ⟨h.stored.congr rfl (List.Subset.refl _), nofun, nofun, ?_⟩
      rintro batch served hstage
      cases hstage
      exact ⟨.nil, nofun, nofun⟩

theorem Sound.disconnect (h : s.Sound C readable init) (i : ℕ) :
    (s.step C (.disconnect i)).Sound C readable init :=
  ⟨h.stored.congr rfl (List.Subset.refl _),
    sockets_update (fun j k hk => (h.sockets j k hk).congr rfl (List.Subset.refl _)) nofun⟩

theorem Sound.offer (h : s.Sound C readable init) (i : ℕ) (e : Event) :
    (s.step C (.offer i e)).Sound C readable init := by
  unfold step
  dsimp only
  by_cases hoff : s.Offered C e
  · rw [if_pos hoff]
    refine h.actQuietly fun k hk => ?_
    obtain ⟨hcursor, hacking, hqueued, hbatch⟩ := h.sockets i k hk
    refine ⟨hcursor, hacking, fun x hx => ?_, hbatch⟩
    rcases mem_offer hx with hx | rfl
    · exact hqueued x hx
    · exact hoff.2
  · rw [if_neg hoff]
    exact h

theorem ahead_readSince (c : Cursor) (n : ℤ) :
    s.Ahead C c (s.log.readSince c C.filter n) where
  sorted := ((after_sorted s.log c).sublist (List.take_sublist _ _)).sublist List.filter_sublist
  logged := fun e he => (EventLog.mem_after.mp (List.mem_of_mem_take (List.mem_of_mem_filter he))).1
  closed := by
    intro e he x hx hm ho hle hc
    have hnot : ¬c.Behind x := fun hb => not_le.mpr hc (le_markOf_of_behind hb)
    have hafter : x ∈ s.log.after c := EventLog.mem_after.mpr ⟨hx, hnot⟩
    exact List.mem_filter.mpr ⟨mem_page hafter (List.mem_of_mem_filter he) ho hle, hm⟩

/-- A socket stands where it stood: it has perhaps taken from its queue, or left its replay. -/
structure Quiet (k k' : Socket) : Prop where
  cursor : k'.cursor = k.cursor
  acking : k'.acking = k.acking
  queue : k'.live.queue ⊆ k.live.queue
  stage : ∀ batch served, k'.stage = .replaying batch served → k.stage = .replaying batch served

theorem Quiet.refl (k : Socket) : Quiet k k := ⟨rfl, rfl, List.Subset.refl _, fun _ _ h => h⟩

theorem SocketSound.quiet {k' : Socket} (h : s.SocketSound C readable init k) (hq : Quiet k k') :
    s.SocketSound C readable init k' := by
  obtain ⟨hcursor, hacking, hqueue, hstage⟩ := hq
  refine ⟨?_, ?_, fun e he => h.queued e (hqueue he), fun batch served hb => ?_⟩
  · rw [hcursor]
    exact h.cursor
  · rw [hacking]
    exact h.acking
  · rw [hcursor]
    exact h.batch batch served (hstage batch served hb)

theorem readBatch_cases (C : FeedConfig) (log : EventLog) (k : Socket) (ok : Bool) :
    Quiet k (k.readBatch C log ok) ∨ ∃ n served, k.readBatch C log ok =
      { k with stage := .replaying (log.readSince k.cursor C.filter n) served } := by
  have hlive : Quiet k { k with stage := .live } := ⟨rfl, rfl, List.Subset.refl _, nofun⟩
  unfold Socket.readBatch
  split
  · rename_i served hstage
    split_ifs
    · split
      · exact .inl hlive
      · exact .inr ⟨_, served, rfl⟩
    · exact .inl hlive
  · exact .inl (Quiet.refl k)

theorem replayNext_cases (k : Socket) (t : Turn) :
    (Quiet k (k.replayNext t).1 ∧ (k.replayNext t).2 = []) ∨
    ∃ e batch served, k.stage = .replaying (e :: batch) served ∧ (k.replayNext t).1 =
        { k with cursor := k.cursor.passed e, stage := .replaying batch (served + 1) } ∧
      (k.replayNext t).2 = if t.visible then [e] else [] := by
  unfold Socket.replayNext
  split
  · rename_i e batch served hstage
    by_cases hend : (!t.connected || (t.visible && !t.delivered)) = true
    · rw [if_pos hend]
      exact .inl ⟨⟨rfl, rfl, List.Subset.refl _, nofun⟩, rfl⟩
    · rw [if_neg hend]
      exact .inr ⟨e, batch, served, hstage, rfl, rfl⟩
  · exact .inl ⟨Quiet.refl k, rfl⟩

theorem pump_cases (k : Socket) (t : Turn) :
    (Quiet k (k.pump t).1 ∧ (k.pump t).2 = [] ∧ ∀ e, ¬k.Forwards t e) ∨
    ∃ e queue, k.live.queue = e :: queue ∧ k.Forwards t e ∧ k.pump t =
      ({ k with
          cursor := k.cursor.passed e
          live := { k.live with queue := queue }
          reportedDrops := k.live.dropped }, [e]) := by
  by_cases hdue : k.stage = .live ∧ k.live.queue ≠ []
  · obtain ⟨hstage, hne⟩ := hdue
    obtain ⟨e, queue, hq⟩ := List.exists_cons_of_ne_nil hne
    have hforward : ∀ x, k.Forwards t x → x = e ∧ t.connected = true ∧ k.closing t = false ∧
        k.alreadyServed e = false ∧ t.visible = true ∧ t.delivered = true := by
      rintro x ⟨-, hx, h⟩
      rw [hq, List.head?_cons, Option.mem_some_iff] at hx
      subst hx
      exact ⟨rfl, h⟩
    have htaken : ∀ (stage : Stage) (n : ℕ), (∀ batch served, stage ≠ .replaying batch served) →
        Quiet k ⟨k.cursor, { k.live with queue := queue }, n, stage, k.acking⟩ := by
      intro stage n hn
      refine ⟨rfl, rfl, ?_, fun batch served h => absurd h (hn batch served)⟩
      rw [hq]
      exact List.subset_cons_self e queue
    have hlive := htaken k.stage k.live.dropped (by rw [hstage]; exact nofun)
    have hclosed := fun n => htaken .closed n nofun
    simp only [Socket.pump, hstage, hq]
    split_ifs with hc hcl hs hd
    · refine .inl ⟨hclosed _, rfl, fun x hx => ?_⟩
      simp [(hforward x hx).2.1] at hc
    · refine .inl ⟨hclosed _, rfl, fun x hx => ?_⟩
      simp [(hforward x hx).2.2.1] at hcl
    · refine .inl ⟨hstage ▸ hlive, rfl, fun x hx => ?_⟩
      simp [(hforward x hx).2.2.2.1, (hforward x hx).2.2.2.2.1] at hs
    · refine .inl ⟨hclosed _, rfl, fun x hx => ?_⟩
      simp [(hforward x hx).2.2.2.2.2] at hd
    · refine .inr ⟨e, queue, rfl, ⟨hstage, by simp [hq], by simpa using hc, by simpa using hcl, ?_⟩, rfl⟩
      simpa [and_assoc] using And.intro hs hd
  · have hquiet : k.pump t = (k, []) := by
      unfold Socket.pump
      split
      · rename_i e queue hstage hq
        exact absurd ⟨hstage, by simp [hq]⟩ hdue
      · rfl
    rw [hquiet]
    refine .inl ⟨Quiet.refl k, rfl, fun e he => hdue ⟨he.1, fun hnil => ?_⟩⟩
    have := he.2.1
    rw [hnil] at this
    cases this

theorem Sound.readBatch (h : s.Sound C readable init) (i : ℕ) (ok : Bool) :
    (s.step C (.readBatch i ok)).Sound C readable init := by
  refine h.actQuietly fun k hk => ?_
  have hsound := h.sockets i k hk
  rcases readBatch_cases C s.log k ok with hq | ⟨n, served, heq⟩
  · exact hsound.quiet hq
  · rw [heq]
    refine ⟨hsound.cursor, hsound.acking, hsound.queued, fun batch served' hb => ?_⟩
    rw [← (Stage.replaying.inj hb).1]
    exact ahead_readSince k.cursor n

/-- Replay serves its page in order: what is owed up to an event was served by it or before it. -/
theorem Sound.replayNext (h : s.Sound C readable init) {t : Turn}
    (hhonest : s.Honest readable (.replayNext i t)) :
    (s.step C (.replayNext i t)).Sound C readable init := by
  refine h.act fun k hk => ?_
  have hlog := log_act (s := s) i (·.replayNext t)
  have hsub := sent_act (s := s) i (·.replayNext t)
  have hsound := (h.sockets i k hk).congr hlog hsub
  rcases replayNext_cases k t with ⟨hq, -⟩ | ⟨e, batch, served, hstage, hnext, hout⟩
  · exact hsound.quiet hq
  · have hahead := hsound.batch _ _ hstage
    have he := hahead.logged e List.mem_cons_self
    rw [hnext]
    refine ⟨?_, hsound.acking, hsound.queued, ?_⟩
    · refine hsound.cursor.passed (.inr he) fun x hx ho hle hc => ?_
      have hx' : x ∈ e :: batch := hahead.closed e List.mem_cons_self x hx.1 hx.2.1 ho hle hc
      have hxe : x = e := by
        rcases List.mem_cons.mp hx' with hxe | hx'
        · exact hxe
        · have hkey := (List.pairwise_cons.mp hahead.sorted).1 x hx'
          refine EventLog.eq_of_key hx.1 he ho (le_antisymm hle ?_)
          rcases Prod.Lex.toLex_le_toLex.mp hkey with hlt | ⟨-, hle⟩
          · exact absurd hlt (by rw [ho]; exact lt_irrefl _)
          · exact hle
      subst hxe
      have hvisible := hhonest k hk x batch served hstage hx.2.2.1
      rw [sockets_act hk, hout, if_pos hvisible]
      exact List.mem_append_right _ List.mem_cons_self
    · rintro batch' served' hb
      obtain ⟨rfl, -⟩ := Stage.replaying.inj hb
      refine ⟨(List.pairwise_cons.mp hahead.sorted).2, ?_, ?_⟩
      · exact fun b hb => hahead.logged b (List.mem_cons_of_mem e hb)
      · intro b hb x hx hm ho hle hc
        -- it lies after the position reached now, so after the one before, and it is not the event passed
        have hnot := not_le.mpr hc
        rw [le_markOf_passed (EventLog.origin_ne he), not_or] at hnot
        have hx' := hahead.closed b (List.mem_cons_of_mem e hb) x hx hm ho hle (not_le.mp hnot.1)
        refine (List.mem_cons.mp hx').resolve_left ?_
        rintro rfl
        exact hnot.2 ⟨rfl, le_refl _⟩

theorem Sound.pump (h : s.Sound C readable init) {t : Turn} (hin : s.InOrder C readable init (.pump i t)) :
    (s.step C (.pump i t)).Sound C readable init := by
  refine h.act fun k hk => ?_
  have hlog := log_act (s := s) i (·.pump t)
  have hsub := sent_act (s := s) i (·.pump t)
  have hsound := (h.sockets i k hk).congr hlog hsub
  rcases pump_cases k t with ⟨hq, -, -⟩ | ⟨e, queue, hqueue, hforward, hpump⟩
  · exact hsound.quiet hq
  · have hqueued : ∀ b ∈ e :: queue, b.origin = "" ∨ b ∈ (s.act i (·.pump t)).log.events := by
      rw [← hqueue]
      exact hsound.queued
    rw [hpump]
    refine ⟨?_, hsound.acking, fun b hb => hqueued b (List.mem_cons_of_mem e hb), ?_⟩
    · refine hsound.cursor.passed (hqueued e List.mem_cons_self) fun x hx ho hle _ => ?_
      have hmem : e ∈ (s.act i (·.pump t)).sent := by
        rw [sockets_act hk, hpump]
        exact List.mem_append_right _ List.mem_cons_self
      have hne : e.origin ≠ "" := ho ▸ EventLog.origin_ne hx.1
      have he := (hqueued e List.mem_cons_self).resolve_left hne
      by_cases hseq : x.seq = e.seq
      · rw [EventLog.eq_of_key hx.1 he ho hseq]
        exact hmem
      · rw [Owes, hlog] at hx
        exact hsub (hin k hk e hforward hne x hx ho (lt_of_le_of_ne hle hseq))
    · intro batch served hb
      rw [hforward.1] at hb
      cases hb

theorem Sound.ackLoad (h : s.Sound C readable init) (i : ℕ) (allowed : Bool) :
    (s.step C (.ackLoad i allowed)).Sound C readable init := by
  refine h.actQuietly fun k hk => ?_
  have hsound := h.sockets i k hk
  unfold Socket.ackLoad
  split
  · exact hsound
  · split_ifs
    · refine ⟨hsound.cursor, ?_, hsound.queued, hsound.batch⟩
      rintro c hc
      rw [← Option.some.inj hc]
      exact h.stored.merged (hsound.cursor.merged hsound.cursor)
    · exact hsound

theorem Sound.ackSave (h : s.Sound C readable init) (i : ℕ) (ok : Bool) :
    (s.step C (.ackSave i ok)).Sound C readable init := by
  unfold step
  dsimp only
  split
  · exact h
  · rename_i c hc
    obtain ⟨k, hk, hack⟩ := Option.bind_eq_some_iff.mp hc
    have hquiet : (s.act i fun k => ({ k with acking := none }, [])).Sound C readable init := by
      refine h.actQuietly fun k' hk' => ?_
      obtain ⟨hcursor, -, hqueued, hbatch⟩ := h.sockets i k' hk'
      exact ⟨hcursor, nofun, hqueued, hbatch⟩
    refine ⟨?_, fun j k' hk' => (hquiet.sockets j k' hk').congr rfl (List.Subset.refl _)⟩
    cases ok with
    | false => exact h.stored.congr (log_act i _) (sent_act i _)
    | true => exact ((h.sockets i k hk).acking c hack).congr (log_act i _) (sent_act i _)

theorem Sound.step (h : s.Sound C readable init) {a : DurableEvent} (hhonest : s.Honest readable a)
    (hin : s.InOrder C readable init a) : (s.step C a).Sound C readable init := by
  cases a with
  | append origin body => exact h.append origin body
  | connect i overflow => exact h.connect i overflow
  | offer i e => exact h.offer i e
  | readBatch i ok => exact h.readBatch i ok
  | replayNext i t => exact h.replayNext hhonest
  | pump i t => exact h.pump hin
  | ackLoad i allowed => exact h.ackLoad i allowed
  | ackSave i ok => exact h.ackSave i ok
  | disconnect i => exact h.disconnect i

theorem Sound.holds (h : s.Sound C readable init) : s.Holds C readable init := by
  refine ⟨h.stored.served, fun i k hk x hx hs => ?_⟩
  exact (h.sockets i k hk).cursor.served x hx ((alreadyServed_iff (EventLog.origin_ne hx.1)).mp hs)

theorem Sound.start (log : EventLog) (marks : Table String ℤ) :
    (start log (.of marks)).Sound C readable (.of marks) :=
  ⟨⟨proper_of marks, fun _ _ h => .inl h, fun _ hx hle => absurd hle (not_le.mpr hx.2.2.2)⟩, nofun⟩

theorem inOrder_of_holds {a : DurableEvent} (h : (s.step C a).Holds C readable init) :
    s.InOrder C readable init a := by
  cases a with
  | pump i t =>
    intro k hk e he hne x hx ho hlt
    rcases pump_cases k t with ⟨-, -, hno⟩ | ⟨e', queue, hqueue, he', hpump⟩
    · exact absurd he (hno e)
    · have hee : e' = e := Option.mem_unique he'.2.1 he.2.1
      subst hee
      have hk' : (s.act i (·.pump t)).sockets i = some (k.pump t).1 := by
        rw [sockets_act hk]
        exact Function.update_self _ _ _
      have hx' : (s.act i (·.pump t)).Owes C readable init x := by
        rw [Owes, log_act]
        exact hx
      have hserved : (k.pump t).1.alreadyServed x = true := by
        rw [alreadyServed_iff (EventLog.origin_ne hx.1), hpump]
        exact (le_markOf_passed hne).mpr (.inr ⟨ho, hlt.le⟩)
      have hsent := h.2 i _ hk' x hx' hserved
      change x ∈ (s.act i (·.pump t)).sent at hsent
      rw [sockets_act hk, hpump, List.mem_append, List.mem_singleton] at hsent
      refine hsent.resolve_right ?_
      rintro rfl
      exact lt_irrefl _ hlt
  | _ => trivial

/-- **An acknowledged position** hides nothing unsent exactly when the pump forwards nothing ahead of what is owed. -/
theorem acked_hides_nothing_iff (C : FeedConfig) (readable : Event → Bool) (log : EventLog) (text : String)
    (events : List DurableEvent)
    (hhonest : Along (step C) (Honest readable) (start log (.parse text)) events) :
    Along (step C) (fun s a => (s.step C a).Holds C readable (.parse text)) (start log (.parse text)) events ↔
      Along (step C) (InOrder C readable (.parse text)) (start log (.parse text)) events := by
  have hiff : ∀ (s : Durable) (a : DurableEvent), s.Sound C readable (.parse text) →
      ((s.step C a).Holds C readable (.parse text) ∧ s.Honest readable a ↔
        s.InOrder C readable (.parse text) a ∧ s.Honest readable a) := by
    intro s a hs
    refine and_congr_left fun hh => ⟨inOrder_of_holds, fun hin => ?_⟩
    exact (hs.step hh hin).holds
  have hstep : ∀ (s : Durable) (a : DurableEvent), s.Sound C readable (.parse text) →
      (s.step C a).Holds C readable (.parse text) ∧ s.Honest readable a →
      (s.step C a).Sound C readable (.parse text) :=
    fun s a hs h => hs.step h.2 (inOrder_of_holds h.1)
  have hrun := along_congr hiff hstep events (start log (.parse text)) (Sound.start log _)
  rw [along_and, along_and] at hrun
  exact ⟨fun h => (hrun.mp ⟨h, hhonest⟩).1, fun h => (hrun.mpr ⟨h, hhonest⟩).1⟩

/-! ### Two events out of order -/

def everything : FeedConfig := ⟨⟨none, none, none, []⟩, 1000, 5000⟩

def here : Origin := .here

def smooth : Turn := ⟨true, true, true, true⟩

def replayedThenForwarded : List DurableEvent :=
  [.connect 0 .dropOldest, .readBatch 0 true, .replayNext 0 smooth, .readBatch 0 true, .append here deleted,
    .offer 0 ⟨"here", 2, deleted⟩, .pump 0 smooth, .ackLoad 0 true, .ackSave 0 true]

def forwarding : Durable :=
  (start (emptyLog.append here created) (.parse "")).run everything (replayedThenForwarded.take 6)

theorem acked_hides_nothing_forwarded :
    Along (step everything) (fun s a => (s.step everything a).Holds everything (fun _ => true) (.parse ""))
      (start (emptyLog.append here created) (.parse "")) replayedThenForwarded := by
  refine (acked_hides_nothing_iff everything (fun _ => true) (emptyLog.append here created) ""
    replayedThenForwarded ⟨trivial, trivial, fun _ _ _ _ _ _ _ => rfl, trivial, trivial, trivial,
      fun _ _ _ _ _ => rfl, trivial, trivial, trivial⟩).mpr
    ⟨trivial, trivial, trivial, trivial, trivial, trivial, ?_, trivial, trivial, trivial⟩
  intro k hk e he _ x hx _ hlt
  have hqueue : (forwarding.sockets 0).map (·.live.queue) = some [⟨"here", 2, deleted⟩] := by decide +kernel
  have hlog : forwarding.log.events = [⟨"here", 2, deleted⟩, ⟨"here", 1, created⟩] := by decide +kernel
  have hsent : forwarding.sent = [⟨"here", 1, created⟩] := by decide +kernel
  have hk' : forwarding.sockets 0 = some k := hk
  have hx' : x ∈ forwarding.log.events := hx.1
  change x ∈ forwarding.sent
  have hhead := he.2.1
  rw [hk', Option.map_some, Option.some.injEq] at hqueue
  rw [hqueue, List.head?_cons, Option.mem_some_iff] at hhead
  subst hhead
  rw [hlog, List.mem_pair] at hx'
  rw [hsent, List.mem_singleton]
  refine hx'.resolve_left ?_
  rintro rfl
  exact lt_irrefl _ hlt

def outOfOrder : List DurableEvent :=
  [.connect 0 .dropOldest, .readBatch 0 true, .append here created, .append here deleted,
    .offer 0 ⟨"here", 2, deleted⟩, .pump 0 smooth, .ackLoad 0 true, .ackSave 0 true]

theorem acked_hides_unsent :
    ¬∀ (C : FeedConfig) (readable : Event → Bool) (log : EventLog) (text : String)
      (events : List DurableEvent), Along (step C) (Honest readable) (start log (.parse text)) events →
      ((start log (.parse text)).run C events).Holds C readable (.parse text) := by
  intro h
  have hholds := h everything (fun _ => true) emptyLog "" outOfOrder ⟨trivial, trivial, trivial, trivial,
    trivial, fun _ _ _ _ _ => rfl, trivial, trivial, trivial⟩
  have hsent := hholds.1 ⟨"here", 1, created⟩ ⟨by decide +kernel, by decide +kernel, rfl, by decide +kernel⟩
    (by decide +kernel)
  revert hsent
  decide +kernel

end Durable

end Mantle.Bus
