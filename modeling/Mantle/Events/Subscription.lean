import Mantle.Events.Bus

/-!
# Mantle.Events.Subscription — reading forward and acknowledging (`entities/subscription.py`)

The cursor moves only over what was returned; but a page in which nothing matches moves nothing, and the rows after it
are out of reach.
-/

namespace Mantle.Bus

structure Subscription where
  filter : EventFilter
  cursor : Cursor
  batchLimit : ℤ
  bounded : 1 ≤ batchLimit

def Subscription.limitOf (s : Subscription) (limit : Option ℤ) : ℤ :=
  match limit with
  | none => s.batchLimit
  | some n => if n = 0 then s.batchLimit else n

/-- The next batch; the cursor stays. -/
def Subscription.read (s : Subscription) (log : EventLog) (limit : Option ℤ) : List Event :=
  log.readSince s.cursor s.filter (s.limitOf limit)

def ackOver (c : Cursor) (events : List Event) : Cursor :=
  events.foldl (fun c e => if e.origin = "" then c else c.advanced e.origin e.seq) c

def Subscription.ack (s : Subscription) (events : List Event) : Subscription :=
  { s with cursor := ackOver s.cursor events }

/-- The event lies at or before one of the list, on its origin's axis. -/
def Event.UpTo (e : Event) (events : List Event) : Prop := ∃ b ∈ events, e.origin = b.origin ∧ e.seq ≤ b.seq

variable {e : Event}

theorem upTo_append {xs ys : List Event} : e.UpTo (xs ++ ys) ↔ e.UpTo xs ∨ e.UpTo ys := by
  simp [Event.UpTo, or_and_right, exists_or]

theorem upTo_self {events : List Event} (h : e ∈ events) : e.UpTo events :=
  ⟨e, h, rfl, le_refl _⟩

theorem behind_ackOver (hpos : 0 < e.seq) : ∀ {events : List Event} {c : Cursor},
    (∀ b ∈ events, b.origin ≠ "") → ((ackOver c events).Behind e ↔ c.Behind e ∨ e.UpTo events)
  | [], c, _ => by simp [ackOver, Event.UpTo]
  | b :: events, c, h => by
    have hstep : ackOver c (b :: events) = ackOver (c.advanced b.origin b.seq) events := by
      simp [ackOver, h b (by simp)]
    rw [hstep, behind_ackOver hpos fun b' hb' => h b' (by simp [hb']), behind_advanced hpos, or_assoc]
    simp [Event.UpTo]

/-! ### A subscriber beside the appending origins -/

/-- The log, the subscription, the batch in hand, and what was returned and acknowledged so far. -/
structure Feed where
  log : EventLog
  sub : Subscription
  held : Option (List Event)
  returned : List Event
  acked : List Event

/-- What can happen: an origin appends; the subscriber reads its next batch; it acknowledges the batch. -/
inductive FeedEvent
  | append (origin : Origin) (body : EventBody)
  | read (limit : Option ℤ)
  | ack

def Feed.start (log : EventLog) (sub : Subscription) : Feed := ⟨log, sub, none, [], []⟩

/-- The subscriber reads when it holds no batch, and acknowledges exactly the batch it holds. -/
def Feed.step (s : Feed) : FeedEvent → Feed
  | .append origin body => { s with log := s.log.append origin body }
  | .read limit =>
    match s.held with
    | some _ => s
    | none =>
      { s with held := some (s.sub.read s.log limit), returned := s.returned ++ s.sub.read s.log limit }
  | .ack =>
    match s.held with
    | none => s
    | some batch => { s with sub := s.sub.ack batch, held := none, acked := s.acked ++ batch }

def Feed.run (s : Feed) (events : List FeedEvent) : Feed := events.foldl Feed.step s

/-- The cursor stands at the initial one moved over what was acknowledged, and what was returned is all of the filter's
up to there. -/
structure Feed.Sound (init : Subscription) (s : Feed) : Prop where
  filter : s.sub.filter = init.filter
  behind : ∀ e : Event, 0 < e.seq → (s.sub.cursor.Behind e ↔ init.cursor.Behind e ∨ e.UpTo s.acked)
  logged : ∀ e ∈ s.returned, e ∈ s.log.events
  acked : ∀ e ∈ s.acked, e ∈ s.returned
  inHand : ∀ e ∈ s.returned, e ∈ s.acked ∨ ∃ batch ∈ s.held, e ∈ batch
  held : ∀ batch ∈ s.held, ∀ e ∈ batch, e ∈ s.returned
  closed : ∀ e ∈ s.log.events, init.filter.matchesEvent e = true → ¬init.cursor.Behind e →
    e.UpTo s.returned → e ∈ s.returned

theorem Feed.Sound.start (log : EventLog) (sub : Subscription) : (Feed.start log sub).Sound sub where
  filter := rfl
  behind := by simp [Feed.start, Event.UpTo]
  logged := by simp [Feed.start]
  acked := by simp [Feed.start]
  inHand := by simp [Feed.start]
  held := by simp [Feed.start]
  closed := by simp [Feed.start, Event.UpTo]

theorem mem_read {sub : Subscription} {log : EventLog} {limit : Option ℤ} (h : e ∈ sub.read log limit) :
    e ∈ log.events ∧ ¬sub.cursor.Behind e :=
  EventLog.mem_after.mp (List.mem_of_mem_take (List.mem_of_mem_filter h))

variable {init : Subscription}

theorem Feed.Sound.append {s : Feed} (h : s.Sound init) (origin : Origin) (body : EventBody) :
    (s.step (.append origin body)).Sound init where
  filter := h.filter
  behind := h.behind
  logged := fun e he => EventLog.mem_append.mpr (.inr (h.logged e he))
  acked := h.acked
  inHand := h.inHand
  held := h.held
  closed := by
    intro e he hm hb hup
    rcases EventLog.mem_append.mp he with rfl | he
    · -- the new number is above every one of its origin
      obtain ⟨b, hb', ho, hle⟩ := hup
      have := EventLog.seq_le_lastSeq (h.logged b hb')
      simp only at ho hle
      rw [← ho] at this
      omega
    · exact h.closed e he hm hb hup

theorem Feed.Sound.read {s : Feed} (h : s.Sound init) (limit : Option ℤ) :
    (s.step (.read limit)).Sound init := by
  unfold Feed.step
  cases hheld : s.held with
  | some batch => simpa [hheld] using h
  | none =>
    have hback : ∀ e ∈ s.returned, e ∈ s.acked := by
      intro e he
      simpa [hheld] using h.inHand e he
    refine ⟨h.filter, h.behind, ?_, ?_, ?_, ?_, ?_⟩
    · intro e he
      exact (List.mem_append.mp he).elim (h.logged e) fun hr => (mem_read hr).1
    · exact fun e he => List.mem_append_left _ (h.acked e he)
    · intro e he
      rcases List.mem_append.mp he with he | he
      · exact .inl (hback e he)
      · exact .inr ⟨_, rfl, he⟩
    · rintro batch hbatch e he
      rw [← Option.some.inj hbatch] at he
      exact List.mem_append_right _ he
    · intro e he hm hb hup
      rcases upTo_append.mp hup with hup | ⟨b, hbatch, ho, hle⟩
      · exact List.mem_append_left _ (h.closed e he hm hb hup)
      · by_cases hcur : s.sub.cursor.Behind e
        · -- behind the cursor: it was acknowledged up to there, hence returned
          have hup := ((h.behind e (EventLog.seq_pos he)).mp hcur).resolve_left hb
          obtain ⟨b', hb', hbo⟩ := hup
          exact List.mem_append_left _ (h.closed e he hm hb ⟨b', h.acked b' hb', hbo⟩)
        · refine List.mem_append_right _ (List.mem_filter.mpr ⟨?_, by rw [h.filter]; exact hm⟩)
          exact mem_page (EventLog.mem_after.mpr ⟨he, hcur⟩) (List.mem_of_mem_filter hbatch) ho hle

theorem Feed.Sound.ack {s : Feed} (h : s.Sound init) :
    (s.step .ack).Sound init := by
  unfold Feed.step
  cases hheld : s.held with
  | none => simpa [hheld] using h
  | some batch =>
    have hbatch := h.held batch hheld
    refine ⟨h.filter, ?_, h.logged, ?_, ?_, ?_, h.closed⟩
    · intro e hpos
      have hnamed : ∀ b ∈ batch, b.origin ≠ "" := by
        intro b hb
        exact (s.log.named _ (EventLog.mem_keys (h.logged b (hbatch b hb)))).1
      change (ackOver s.sub.cursor batch).Behind e ↔ _
      rw [behind_ackOver hpos hnamed, h.behind e hpos, upTo_append, or_assoc]
    · intro e he
      exact (List.mem_append.mp he).elim (h.acked e) (hbatch e)
    · intro e he
      refine .inl (List.mem_append.mpr ?_)
      rcases h.inHand e he with ha | ⟨batch', hb', he'⟩
      · exact .inl ha
      · rw [hheld] at hb'
        rw [Option.some.inj hb']
        exact .inr he'
    · exact fun _ hb => (nomatch hb)

theorem Feed.Sound.step {s : Feed} (h : s.Sound init) : ∀ e : FeedEvent,
    (s.step e).Sound init
  | .append origin body => h.append origin body
  | .read limit => h.read limit
  | .ack => h.ack

theorem Feed.Sound.run {init : Subscription} : ∀ {events : List FeedEvent} {s : Feed}, s.Sound init →
    (s.run events).Sound init
  | [], _, h => h
  | e :: _, _, h => (h.step e).run

/-- Fewer rows than the limit stand between the cursor and the first row the filter selects. -/
def WithinReach (s : Feed) (limit : Option ℤ) : Prop :=
  ∀ pre e post, s.log.after s.sub.cursor = pre ++ e :: post →
    (∀ x ∈ pre, s.sub.filter.matchesEvent x = false) → s.sub.filter.matchesEvent e = true →
    (pre.length : ℤ) < max 1 (s.sub.limitOf limit)

theorem none_match_of_empty {s : Feed} {limit : Option ℤ} (hempty : s.sub.read s.log limit = [])
    (hr : WithinReach s limit) : ∀ e ∈ s.log.after s.sub.cursor, s.sub.filter.matchesEvent e = false := by
  by_contra hne
  push Not at hne
  -- the first row that matches
  obtain ⟨e, hf⟩ : ∃ e, (s.log.after s.sub.cursor).find? s.sub.filter.matchesEvent = some e := by
    rw [← Option.isSome_iff_exists, List.find?_isSome]
    obtain ⟨e, he, hm⟩ := hne
    exact ⟨e, he, by simpa using hm⟩
  obtain ⟨hm, pre, post, hsplit, hpre⟩ := List.find?_eq_some_iff_append.mp hf
  have hlen := hr pre e post hsplit (fun x hx => by simpa using hpre x hx) hm
  have hmem : e ∈ s.sub.read s.log limit := by
    refine List.mem_filter.mpr ⟨?_, hm⟩
    rw [hsplit, List.take_append, List.mem_append]
    refine .inr ?_
    obtain ⟨n, hn⟩ : ∃ n, (max 1 (s.sub.limitOf limit)).toNat - pre.length = n + 1 :=
      ⟨_, (Nat.succ_pred_eq_of_pos (by omega)).symm⟩
    rw [hn]
    simp
  rw [hempty] at hmem
  cases hmem

/-- **Durable delivery** is complete exactly when the next match was within the limit of the read that came back
empty. -/
theorem delivery_complete_iff (log : EventLog) (sub : Subscription) (events : List FeedEvent)
    (limit : Option ℤ) (hidle : ((Feed.start log sub).run events).held = none)
    (hempty : ((Feed.start log sub).run events).sub.read ((Feed.start log sub).run events).log limit = []) :
    ((∀ e ∈ ((Feed.start log sub).run events).log.events, sub.filter.matchesEvent e = true →
        ¬sub.cursor.Behind e → e ∈ ((Feed.start log sub).run events).returned) ↔
      WithinReach ((Feed.start log sub).run events) limit) ∧
    ∀ e ∈ ((Feed.start log sub).run events).acked, ∀ limit',
      e ∉ ((Feed.start log sub).run events).sub.read ((Feed.start log sub).run events).log limit' := by
  have h : ((Feed.start log sub).run events).Sound sub := (Feed.Sound.start log sub).run
  generalize (Feed.start log sub).run events = s at h hidle hempty
  have hbehind : ∀ e ∈ s.acked, s.sub.cursor.Behind e := by
    intro e he
    have hpos := EventLog.seq_pos (h.logged e (h.acked e he))
    exact (h.behind e hpos).mpr (.inr (upTo_self he))
  refine ⟨⟨?_, ?_⟩, fun e he limit' hr => (mem_read hr).2 (hbehind e he)⟩
  · -- a match still ahead would have been returned, and so acknowledged
    intro hall pre e post hsplit _ hm
    have hafter : e ∈ s.log.after s.sub.cursor := by
      rw [hsplit]
      simp
    obtain ⟨he, hcur⟩ := EventLog.mem_after.mp hafter
    have hinit : ¬sub.cursor.Behind e := fun hb => hcur ((h.behind e (EventLog.seq_pos he)).mpr (.inl hb))
    have hret := hall e he (by rw [← h.filter]; exact hm) hinit
    refine absurd (hbehind e ?_) hcur
    simpa [hidle] using h.inHand e hret
  · intro hr e he hm hb
    by_cases hcur : s.sub.cursor.Behind e
    · obtain ⟨b, hb', hbo⟩ := ((h.behind e (EventLog.seq_pos he)).mp hcur).resolve_left hb
      exact h.closed e he hm hb ⟨b, h.acked b hb', hbo⟩
    · have := none_match_of_empty hempty hr e (EventLog.mem_after.mpr ⟨he, hcur⟩)
      rw [h.filter, hm] at this
      cases this

/-! ### A deletion behind a creation -/

def created : EventBody := ⟨"artifact.created", none, some "a", none, none, [], "e1"⟩

def deleted : EventBody := ⟨"artifact.deleted", none, some "a", none, none, [], "e2"⟩

def emptyLog : EventLog := ⟨∅, fun _ h => (nomatch h)⟩

def deletions : Subscription := ⟨⟨none, none, none, ["artifact.deleted"]⟩, ⟨[]⟩, 1, by decide⟩

def creationThenDeletion : List FeedEvent :=
  [.append .here created, .append .here deleted, .read none, .ack]

theorem delivery_complete_deletion :
    (⟨"here", 1, deleted⟩ : Event) ∈ ((Feed.start emptyLog deletions).run
      [.append ⟨"here", by decide⟩ deleted, .read none, .ack]).returned := by
  refine (delivery_complete_iff emptyLog deletions [.append ⟨"here", by decide⟩ deleted, .read none, .ack]
    none (by decide +kernel) (by decide +kernel)).1.mpr ?_ _ (by decide +kernel) (by decide +kernel) ?_
  · intro pre e post hsplit
    have hnil : (((Feed.start emptyLog deletions).run
      [.append ⟨"here", by decide⟩ deleted, .read none, .ack]).log.after ((Feed.start emptyLog deletions).run
      [.append ⟨"here", by decide⟩ deleted, .read none, .ack]).sub.cursor) = [] := by decide +kernel
    rw [hnil] at hsplit
    simp at hsplit
  · rintro ⟨m, hm, -⟩
    cases hm

theorem deletion_missed :
    ¬ ∀ (log : EventLog) (sub : Subscription) (events : List FeedEvent) (limit : Option ℤ),
      ((Feed.start log sub).run events).held = none →
      ((Feed.start log sub).run events).sub.read ((Feed.start log sub).run events).log limit = [] →
      ∀ e ∈ ((Feed.start log sub).run events).log.events, sub.filter.matchesEvent e = true →
        ¬sub.cursor.Behind e → e ∈ ((Feed.start log sub).run events).returned := by
  intro h
  have hmem := h emptyLog deletions creationThenDeletion none (by decide +kernel) (by decide +kernel)
    ⟨"here", 2, deleted⟩ (by decide +kernel) (by decide +kernel) (by rintro ⟨m, hm, -⟩; cases hm)
  revert hmem
  decide +kernel

end Mantle.Bus
