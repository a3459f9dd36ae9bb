import Mantle.Events.Durable

/-!
# Mantle.Events.Offers — the loss account of a live subscription (`LiveSubscription.offer`, `_fanout`)

A publish offers its event to every live subscription whose filter selects it, which puts it into its bounded queue or
drops something and counts that.
-/

namespace Mantle.Offers

open Mantle.Bus (Event EventFilter Overflow)

/-! ### The bounded queue (`asyncio.Queue`) -/

section Queue

variable {α : Type*}

/-- A bound that is not positive is none; no queue is past its bound. -/
structure Queue (α : Type*) where
  maxsize : ℤ
  items : List α
  within : 0 < maxsize → (items.length : ℤ) ≤ maxsize

namespace Queue

def empty (maxsize : ℤ) : Queue α := ⟨maxsize, [], fun h => by simpa using h.le⟩

def Full (q : Queue α) : Prop := 0 < q.maxsize ∧ q.maxsize ≤ q.items.length

instance (q : Queue α) : Decidable q.Full := inferInstanceAs (Decidable (_ ∧ _))

/-- `None` is `QueueFull`. -/
def putNowait (q : Queue α) (x : α) : Option (Queue α) :=
  if h : q.Full then none
  else
    some
      { q with
        items := q.items ++ [x]
        within := fun hpos => by
          unfold Full at h
          rw [List.length_append, List.length_singleton]
          omega }

/-- `None` is `QueueEmpty`. -/
def getNowait (q : Queue α) : Option (α × Queue α) :=
  match h : q.items with
  | [] => none
  | x :: items =>
    some (x, { q with
      items := items
      within := fun hpos => by
        have hle := q.within hpos
        rw [h, List.length_cons] at hle
        omega })

theorem putNowait_of_full {q : Queue α} (h : q.Full) (x : α) : q.putNowait x = none := dif_pos h

theorem putNowait_of_room {q : Queue α} (h : ¬q.Full) (x : α) : ∃ q', q.putNowait x = some q' ∧
    q'.items = q.items ++ [x] ∧ q'.maxsize = q.maxsize := by
  unfold putNowait
  rw [dif_neg h]
  exact ⟨_, rfl, rfl, rfl⟩

theorem putNowait_some {q q' : Queue α} {x : α} (h : q.putNowait x = some q') :
    q'.items = q.items ++ [x] := by
  by_cases hfull : q.Full
  · rw [putNowait_of_full hfull] at h
    cases h
  · obtain ⟨q₁, hq₁, hitems, -⟩ := putNowait_of_room hfull x
    rw [hq₁] at h
    rw [← Option.some.inj h, hitems]

theorem getNowait_some {q q' : Queue α} {x : α} (h : q.getNowait = some (x, q')) :
    q.items = x :: q'.items ∧ q'.maxsize = q.maxsize := by
  unfold getNowait at h
  split at h
  · cases h
  · rename_i hitems
    obtain ⟨rfl, rfl⟩ := Prod.mk.inj (Option.some.inj h)
    exact ⟨hitems, rfl⟩

theorem getNowait_none {q : Queue α} (h : q.getNowait = none) : q.items = [] := by
  unfold getNowait at h
  split at h
  · assumption
  · cases h

end Queue

end Queue

/-! ### A subscription and its consumer -/

structure LiveSubscription where
  filter : EventFilter
  queue : Queue Event
  overflow : Overflow
  dropped : ℕ
  overflowed : Bool

/-- A subscription, what its consumer obtained, and what it was offered. -/
structure Account where
  sub : LiveSubscription
  obtained : List Event
  offered : List Event

namespace Account

def fresh (filter : EventFilter) (maxsize : ℤ) (overflow : Overflow) : Account :=
  ⟨⟨filter, .empty maxsize, overflow, 0, false⟩, [], []⟩

def get (a : Account) : Account :=
  match a.sub.queue.getNowait with
  | none => a
  | some (e, queue) => { a with sub := { a.sub with queue := queue }, obtained := a.obtained ++ [e] }

def gets (a : Account) (n : ℕ) : Account := get^[n] a

/-- `self.dropped += 1` -/
def drop (a : Account) : Account := { a with sub := { a.sub with dropped := a.sub.dropped + 1 } }

/-- `LiveSubscription.offer`.  The consumer gets `between` events after the queue was found full, and `after` once room
was made. -/
def offerNow (a : Account) (e : Event) (between after : ℕ) : Bool × Account :=
  if a.sub.overflowed then (false, a)
  else
    match a.sub.queue.putNowait e with
    | some queue => (true, { a with sub := { a.sub with queue := queue } })
    | none =>
      let a := a.gets between
      match a.sub.overflow with
      | .dropNewest => (false, a.drop)
      | .disconnect => (false, { a.drop with sub := { a.drop.sub with overflowed := true } })
      | .dropOldest =>
        -- make room at the head, unless the consumer has
        let a := match a.sub.queue.getNowait with
          | some (_, queue) => { a.drop with sub := { a.drop.sub with queue := queue } }
          | none => a
        let a := a.gets after
        match a.sub.queue.putNowait e with
        | some queue => (true, { a with sub := { a.sub with queue := queue } })
        | none => (false, a.drop)

def offer (a : Account) (e : Event) (between after : ℕ) : Account :=
  { (a.offerNow e between after).2 with offered := a.offered ++ [e] }

/-- What was obtained and what is still queued. -/
def kept (a : Account) : List Event := a.obtained ++ a.sub.queue.items

/-! ### What a call preserves -/

/-- What is kept was offered, in order; what is not was counted, unless the subscription gave up, and then it kept all
there was until it did. -/
structure Balanced (a : Account) : Prop where
  order : a.kept.Sublist a.offered
  counted : a.sub.overflow ≠ .disconnect → a.sub.overflowed = false ∧
    a.offered.length = a.obtained.length + a.sub.queue.items.length + a.sub.dropped
  whole : a.sub.overflow = .disconnect → a.kept <+: a.offered ∧ (a.sub.overflowed = false → a.kept = a.offered)

variable {a : Account}

theorem length_kept (a : Account) : a.kept.length = a.obtained.length + a.sub.queue.items.length :=
  List.length_append

theorem Balanced.fresh (filter : EventFilter) (maxsize : ℤ) (overflow : Overflow) :
    (Account.fresh filter maxsize overflow).Balanced :=
  ⟨List.Sublist.refl _, fun _ => ⟨rfl, rfl⟩, fun _ => ⟨List.prefix_rfl, fun _ => rfl⟩⟩

theorem get_frame (a : Account) : a.get.kept = a.kept ∧ a.get.offered = a.offered ∧
    a.get.sub.filter = a.sub.filter ∧ a.get.sub.overflow = a.sub.overflow ∧
    a.get.sub.dropped = a.sub.dropped ∧ a.get.sub.overflowed = a.sub.overflowed := by
  unfold get
  cases hg : a.sub.queue.getNowait with
  | none => exact ⟨rfl, rfl, rfl, rfl, rfl, rfl⟩
  | some p =>
    obtain ⟨e, queue⟩ := p
    refine ⟨?_, rfl, rfl, rfl, rfl, rfl⟩
    unfold kept
    rw [(Queue.getNowait_some hg).1, List.append_assoc, List.singleton_append]

theorem gets_frame (n : ℕ) : ∀ a : Account, (a.gets n).kept = a.kept ∧ (a.gets n).offered = a.offered ∧
    (a.gets n).sub.filter = a.sub.filter ∧ (a.gets n).sub.overflow = a.sub.overflow ∧
    (a.gets n).sub.dropped = a.sub.dropped ∧ (a.gets n).sub.overflowed = a.sub.overflowed := by
  induction n with
  | zero => exact fun a => ⟨rfl, rfl, rfl, rfl, rfl, rfl⟩
  | succ n ih =>
    intro a
    have hstep : a.gets (n + 1) = a.get.gets n := Function.iterate_succ_apply get n a
    obtain ⟨h1, h2, h3, h4, h5, h6⟩ := ih a.get
    obtain ⟨g1, g2, g3, g4, g5, g6⟩ := a.get_frame
    rw [hstep]
    exact ⟨h1.trans g1, h2.trans g2, h3.trans g3, h4.trans g4, h5.trans g5, h6.trans g6⟩

theorem Balanced.get (h : a.Balanced) : a.get.Balanced := by
  obtain ⟨hk, ho, -, hp, hd, hf⟩ := a.get_frame
  have hlen := congrArg List.length hk
  rw [length_kept, length_kept] at hlen
  refine ⟨by rw [hk, ho]; exact h.order, fun hne => ?_, fun he => ?_⟩
  · rw [hp] at hne
    obtain ⟨h1, h2⟩ := h.counted hne
    rw [hf, ho, hd]
    exact ⟨h1, by omega⟩
  · rw [hp] at he
    rw [hk, ho, hf]
    exact h.whole he

theorem Balanced.gets (h : a.Balanced) : ∀ n : ℕ, (a.gets n).Balanced
  | 0 => h
  | n + 1 => by
    have hstep : a.gets (n + 1) = (a.gets n).get := Function.iterate_succ_apply' Account.get n a
    rw [hstep]
    exact (h.gets n).get

theorem Balanced.enqueue (h : a.Balanced) (hopen : a.sub.overflowed = false) {e : Event} {queue : Queue Event}
    (hq : a.sub.queue.putNowait e = some queue) :
    Balanced { a with sub := { a.sub with queue := queue }, offered := a.offered ++ [e] } := by
  have hitems := Queue.putNowait_some hq
  have hkept : kept { a with sub := { a.sub with queue := queue }, offered := a.offered ++ [e] } =
      a.kept ++ [e] := by
    unfold kept
    rw [hitems, List.append_assoc]
  refine ⟨?_, fun hne => ⟨hopen, ?_⟩, fun he => ?_⟩
  · rw [hkept]
    exact h.order.append (List.Sublist.refl _)
  · have hcount := (h.counted hne).2
    simp only [hitems, List.length_append, List.length_singleton]
    omega
  · have hall := (h.whole he).2 hopen
    rw [hkept, hall]
    exact ⟨List.prefix_rfl, fun _ => rfl⟩

theorem Balanced.refuse (h : a.Balanced) (hne : a.sub.overflow ≠ .disconnect) (e : Event) :
    Balanced { a.drop with offered := a.offered ++ [e] } := by
  refine ⟨h.order.trans (List.sublist_append_left _ _), fun _ => ⟨(h.counted hne).1, ?_⟩, fun he => absurd he hne⟩
  have hcount := (h.counted hne).2
  simp only [drop, List.length_append, List.length_singleton]
  omega

theorem Balanced.evict (h : a.Balanced) (hne : a.sub.overflow ≠ .disconnect) {x : Event} {queue : Queue Event}
    (hq : a.sub.queue.getNowait = some (x, queue)) :
    Balanced { a.drop with sub := { a.drop.sub with queue := queue } } := by
  have hitems := (Queue.getNowait_some hq).1
  refine ⟨?_, fun _ => ⟨(h.counted hne).1, ?_⟩, fun he => absurd he hne⟩
  · refine List.Sublist.trans ?_ h.order
    unfold kept
    rw [hitems]
    exact (List.Sublist.refl _).append (List.sublist_cons_self x queue.items)
  · have hcount := (h.counted hne).2
    rw [hitems, List.length_cons] at hcount
    simp only [drop]
    omega

theorem Balanced.close (h : a.Balanced) (he : a.sub.overflow = .disconnect) (offered : List Event) :
    Balanced { a.drop with sub := { a.drop.sub with overflowed := true }, offered := a.offered ++ offered } :=
  ⟨h.order.trans (List.sublist_append_left _ _), fun hne => absurd he hne,
    fun _ => ⟨(h.whole he).1.trans (List.prefix_append _ _), fun hf => nomatch hf⟩⟩

theorem Balanced.offer (h : a.Balanced) (e : Event) (between after : ℕ) :
    (a.offer e between after).Balanced := by
  unfold Account.offer Account.offerNow
  by_cases hopen : a.sub.overflowed = true
  · rw [if_pos hopen]
    refine ⟨h.order.trans (List.sublist_append_left _ _), fun hne => ?_, fun he => ?_⟩
    · rw [(h.counted hne).1] at hopen
      cases hopen
    · exact ⟨(h.whole he).1.trans (List.prefix_append _ _), fun hf => absurd hopen (by simpa using hf)⟩
  rw [if_neg hopen]
  rw [Bool.not_eq_true] at hopen
  cases hput : a.sub.queue.putNowait e with
  | some queue => exact h.enqueue hopen hput
  | none =>
    dsimp only
    have hb := h.gets between
    obtain ⟨-, hoffered, -, -, -, hflag⟩ := a.gets_frame between
    rw [← hoffered]
    cases hp : (a.gets between).sub.overflow with
    | dropNewest => exact hb.refuse (by rw [hp]; decide) e
    | disconnect => exact hb.close hp [e]
    | dropOldest =>
      dsimp only
      have hne : (a.gets between).sub.overflow ≠ .disconnect := by rw [hp]; decide
      -- room is made, by the offer or by the consumer
      obtain ⟨room, hroom, hrb, hro, hrp⟩ : ∃ room, (match (a.gets between).sub.queue.getNowait with
          | some (_, queue) => { (a.gets between).drop with sub := { (a.gets between).drop.sub with queue := queue } }
          | none => a.gets between) = room ∧ room.Balanced ∧ room.offered = (a.gets between).offered ∧
            room.sub.overflow = (a.gets between).sub.overflow := by
        cases hg : (a.gets between).sub.queue.getNowait with
        | none => exact ⟨_, rfl, hb, rfl, rfl⟩
        | some p => exact ⟨_, rfl, hb.evict hne hg, rfl, rfl⟩
      rw [hroom, ← hro]
      have hab := hrb.gets after
      obtain ⟨-, hao, -, hap, -, -⟩ := room.gets_frame after
      rw [← hao]
      have hane : (room.gets after).sub.overflow ≠ .disconnect := by rw [hap, hrp]; exact hne
      cases hput' : (room.gets after).sub.queue.putNowait e with
      | some queue => exact hab.enqueue (hab.counted hane).1 hput'
      | none => exact hab.refuse hane e

end Account

/-! ### Runs -/

inductive LiveEvent
  | offer (e : Event) (between after : ℕ)
  | get

namespace Account

def step (a : Account) : LiveEvent → Account
  | .offer e between after => a.offer e between after
  | .get => a.get

def run (a : Account) (events : List LiveEvent) : Account := events.foldl step a

theorem Balanced.step {a : Account} (h : a.Balanced) : ∀ e : LiveEvent, (a.step e).Balanced
  | .offer e between after => h.offer e between after
  | .get => h.get

theorem Balanced.run : ∀ {events : List LiveEvent} {a : Account}, a.Balanced → (a.run events).Balanced
  | [], _, h => h
  | e :: _, _, h => (h.step e).run

end Account

def offersOf : List LiveEvent → List Event
  | [] => []
  | .offer e _ _ :: events => e :: offersOf events
  | .get :: events => offersOf events

namespace Account

theorem offerNow_frame (a : Account) (e : Event) (between after : ℕ) :
    (a.offerNow e between after).2.sub.overflow = a.sub.overflow ∧
      (a.offerNow e between after).2.sub.filter = a.sub.filter := by
  obtain ⟨-, -, hf, ho, -, -⟩ := a.gets_frame between
  unfold offerNow
  split_ifs
  · exact ⟨rfl, rfl⟩
  split
  · exact ⟨rfl, rfl⟩
  dsimp only
  split
  · exact ⟨ho, hf⟩
  · exact ⟨ho, hf⟩
  · cases (a.gets between).sub.queue.getNowait with
    | none =>
      obtain ⟨-, -, hf', ho', -, -⟩ := (a.gets between).gets_frame after
      dsimp only
      split <;> exact ⟨ho'.trans ho, hf'.trans hf⟩
    | some p =>
      dsimp only
      generalize hroom : ({ (a.gets between).drop with
        sub := { (a.gets between).drop.sub with queue := p.2 } } : Account) = room
      obtain ⟨-, -, hf', ho', -, -⟩ := room.gets_frame after
      have hrf : room.sub.filter = (a.gets between).sub.filter := by rw [← hroom]; rfl
      have hro : room.sub.overflow = (a.gets between).sub.overflow := by rw [← hroom]; rfl
      split <;> exact ⟨(ho'.trans hro).trans ho, (hf'.trans hrf).trans hf⟩

theorem run_frame : ∀ (events : List LiveEvent) (a : Account),
    (a.run events).offered = a.offered ++ offersOf events ∧ (a.run events).sub.overflow = a.sub.overflow
  | [], a => ⟨(List.append_nil _).symm, rfl⟩
  | .offer e between after :: events, a => by
    obtain ⟨ho, hp⟩ := run_frame events (a.offer e between after)
    refine ⟨ho.trans ?_, hp.trans (a.offerNow_frame e between after).1⟩
    rw [offersOf, Account.offer, List.append_assoc, List.singleton_append]
  | .get :: events, a => by
    obtain ⟨ho, hp⟩ := run_frame events a.get
    obtain ⟨-, hg, -, hg', -, -⟩ := a.get_frame
    refine ⟨?_, hp.trans hg'⟩
    rw [offersOf, ← hg]
    exact ho

/-- **Live loss is accounted**, for every policy, bound and run of offers and gets. -/
theorem live_loss_accounted (filter : EventFilter) (maxsize : ℤ) (overflow : Overflow) (events : List LiveEvent) :
    ((fresh filter maxsize overflow).run events).kept.Sublist (offersOf events) ∧
    (overflow = .dropOldest ∨ overflow = .dropNewest → (offersOf events).length =
      ((fresh filter maxsize overflow).run events).obtained.length +
        ((fresh filter maxsize overflow).run events).sub.queue.items.length +
        ((fresh filter maxsize overflow).run events).sub.dropped) ∧
    (overflow = .disconnect → ((fresh filter maxsize overflow).run events).kept <+: offersOf events) := by
  have hb : ((fresh filter maxsize overflow).run events).Balanced := (Balanced.fresh filter maxsize overflow).run
  obtain ⟨ho, hp⟩ := run_frame events (fresh filter maxsize overflow)
  have ho' : ((fresh filter maxsize overflow).run events).offered = offersOf events := ho
  refine ⟨ho' ▸ hb.order, fun hdrops => ?_, fun he => ?_⟩
  · rw [← ho']
    refine (hb.counted ?_).2
    rw [hp]
    rintro hd
    have hd' : overflow = .disconnect := hd
    rw [hd'] at hdrops
    rcases hdrops with h | h <;> cases h
  · rw [← ho']
    exact (hb.whole (hp.trans he)).1

/-- Without gets between its calls, an offer is the one of a durable socket's queue, bounded as `subscribe_live`
bounds it. -/
theorem offer_durable (a : Account) (e : Event) {n : ℤ} (hn : a.sub.queue.maxsize = max 1 n) :
    (⟨(a.offer e 0 0).sub.queue.items, (a.offer e 0 0).sub.overflow, (a.offer e 0 0).sub.dropped,
      (a.offer e 0 0).sub.overflowed⟩ : Bus.LiveSubscription) =
    Bus.LiveSubscription.offer n ⟨a.sub.queue.items, a.sub.overflow, a.sub.dropped, a.sub.overflowed⟩ e := by
  obtain ⟨⟨filter, q, overflow, dropped, overflowed⟩, obtained, offered⟩ := a
  have hn' : q.maxsize = max 1 n := hn
  have hpos : 0 < q.maxsize := hn' ▸ lt_of_lt_of_le one_pos (le_max_left 1 n)
  unfold Account.offer offerNow Bus.LiveSubscription.offer
  dsimp only
  cases overflowed with
  | true => rfl
  | false =>
    rw [if_neg Bool.false_ne_true, if_neg Bool.false_ne_true, ← hn']
    by_cases hroom : (q.items.length : ℤ) < q.maxsize
    · obtain ⟨q', hput, hitems, -⟩ := Queue.putNowait_of_room (fun hfull => absurd hroom (not_lt.mpr hfull.2)) e
      rw [if_pos hroom, hput]
      simp only [hitems]
    · rw [if_neg hroom, Queue.putNowait_of_full ⟨hpos, not_lt.mp hroom⟩]
      cases overflow with
      | dropNewest => rfl
      | disconnect => rfl
      | dropOldest =>
        dsimp only [gets, Function.iterate_zero, id]
        cases hg : q.getNowait with
        | none =>
          have hempty := Queue.getNowait_none hg
          rw [hempty] at hroom
          exact absurd (by simpa using hpos) hroom
        | some p =>
          obtain ⟨x, q'⟩ := p
          obtain ⟨hitems, hmax⟩ := Queue.getNowait_some hg
          have hle := q.within hpos
          rw [hitems, List.length_cons] at hle
          obtain ⟨q'', hput, hitems', -⟩ := Queue.putNowait_of_room (q := q') (fun hfull => by
            have := hfull.2
            omega) e
          dsimp only [drop]
          rw [hput]
          simp only [hitems', hitems, List.tail_cons]

end Account

/-! ### Fan-out -/

/-- The live subscriptions, each with how many events were published before it, and the events published. -/
structure Hub where
  subs : List (ℕ × Account)
  published : List Event

/-- A publish, with the gets each consumer slips in; a subscriber comes, gets, goes. -/
inductive HubEvent
  | publish (e : Event) (gets : ℕ → ℕ × ℕ)
  | subscribe (filter : EventFilter) (maxsize : ℤ) (overflow : Overflow)
  | get (i : ℕ)
  | unsubscribe (i : ℕ)

namespace Hub

def fanout (subs : List (ℕ × Account)) (e : Event) (gets : ℕ → ℕ × ℕ) : List (ℕ × Account) :=
  subs.mapIdx fun i s =>
    if s.2.sub.filter.matchesEvent e then (s.1, s.2.offer e (gets i).1 (gets i).2) else s

def step (h : Hub) : HubEvent → Hub
  | .publish e gets => ⟨fanout h.subs e gets, h.published ++ [e]⟩
  | .subscribe filter maxsize overflow =>
    { h with subs := h.subs ++ [(h.published.length, .fresh filter (max 1 maxsize) overflow)] }
  | .get i => { h with subs := h.subs.modify i fun s => (s.1, s.2.get) }
  | .unsubscribe i => { h with subs := h.subs.eraseIdx i }

def run (h : Hub) (events : List HubEvent) : Hub := events.foldl step h

/-- A subscription was offered, in order, what was published since it came and its filter selects. -/
def Served (published : List Event) (s : ℕ × Account) : Prop :=
  s.1 ≤ published.length ∧ s.2.offered = (published.drop s.1).filter s.2.sub.filter.matchesEvent ∧ s.2.Balanced

theorem Served.publish {published : List Event} {s : ℕ × Account} (h : Served published s) (e : Event)
    (between after : ℕ) : Served (published ++ [e])
      (if s.2.sub.filter.matchesEvent e then (s.1, s.2.offer e between after) else s) := by
  obtain ⟨hle, ho, hb⟩ := h
  have hdrop : (published ++ [e]).drop s.1 = published.drop s.1 ++ [e] := List.drop_append_of_le_length hle
  have hlen : s.1 ≤ (published ++ [e]).length := by
    rw [List.length_append]
    omega
  split_ifs with hm
  · have hfilter : (s.2.offer e between after).sub.filter = s.2.sub.filter :=
      (s.2.offerNow_frame e between after).2
    refine ⟨hlen, ?_, hb.offer e between after⟩
    rw [hfilter, hdrop, List.filter_append, ← ho, List.filter_cons_of_pos hm]
    rfl
  · refine ⟨hlen, ?_, hb⟩
    rw [hdrop, List.filter_append, ← ho, List.filter_cons_of_neg hm]
    exact (List.append_nil _).symm

theorem Served.step {h : Hub} (hs : ∀ s ∈ h.subs, Served h.published s) (event : HubEvent) :
    ∀ s ∈ (h.step event).subs, Served (h.step event).published s := by
  intro s hmem
  cases event with
  | publish e gets =>
    obtain ⟨i, hi, rfl⟩ := List.mem_mapIdx.mp hmem
    exact (hs _ (List.getElem_mem hi)).publish e _ _
  | subscribe filter maxsize overflow =>
    rcases List.mem_append.mp hmem with hmem | hmem
    · exact hs s hmem
    · rw [List.mem_singleton.mp hmem]
      refine ⟨le_refl _, ?_, .fresh _ _ _⟩
      have hnone : h.published.drop h.published.length = [] := List.drop_length
      exact (congrArg (List.filter filter.matchesEvent) hnone).symm
  | get i =>
    obtain ⟨j, hj, hget⟩ := List.mem_iff_getElem.mp hmem
    have hj' : j < h.subs.length := by simpa [Hub.step] using hj
    have hold := hs _ (List.getElem_mem hj')
    have hcase : s = if i = j then ((h.subs[j]).1, (h.subs[j]).2.get) else h.subs[j] := by
      rw [← hget]
      exact List.getElem_modify ..
    rw [hcase]
    split_ifs
    · obtain ⟨hle, ho, hb⟩ := hold
      obtain ⟨-, hoffered, hfilter, -, -, -⟩ := (h.subs[j]).2.get_frame
      exact ⟨hle, by rw [hoffered, hfilter]; exact ho, hb.get⟩
    · exact hold
  | unsubscribe i => exact hs s (List.mem_of_mem_eraseIdx hmem)

theorem run_served : ∀ {events : List HubEvent} {h : Hub}, (∀ s ∈ h.subs, Served h.published s) →
    ∀ s ∈ (h.run events).subs, Served (h.run events).published s
  | [], _, hs => hs
  | e :: events, h, hs => @run_served events (h.step e) (Served.step hs e)

end Hub

end Mantle.Offers
