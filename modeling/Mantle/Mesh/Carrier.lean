import Mantle.Base.Table

/-!
# Mantle.Mesh.Carrier — a broadcast that remembers keys (`mesh/carrier.py`)

A broadcast pass emits the keys it has not emitted before, so an object that is written again under its key is not
heard of again.
-/

namespace Mantle.Broadcast

abbrev Bytes := List UInt8

abbrev Plane := Table String Bytes

abbrev Frame := String × Bytes

/-- `LoopbackCarrier`: what was emitted, and how far each listener has read. -/
structure Loopback where
  air : List Frame
  offsets : ℕ → ℕ

def Loopback.emit (c : Loopback) (frames : List Frame) : Loopback := { c with air := c.air ++ frames }

def Loopback.receive (c : Loopback) (listener : ℕ) : List Frame × Loopback :=
  (c.air.drop (c.offsets listener), { c with offsets := Function.update c.offsets listener c.air.length })

def framesFromPlane (plane : Plane) (pre : String) (since : List String) : List Frame :=
  plane.toPairs.filter fun f => f.1.startsWith pre && !decide (f.1 ∈ since)

def spoolFrames (plane : Plane) (frames : List Frame) : Plane := frames.foldl (fun p f => p.insert f.1 f.2) plane

/-- The emitter's plane with the set its passes share, the medium, and the listeners' planes. -/
structure State where
  plane : Plane
  emitted : List String
  carrier : Loopback
  planes : ℕ → Plane

def State.start : State := ⟨∅, [], ⟨[], fun _ => 0⟩, fun _ => ∅⟩

def broadcast (pre : String) (s : State) : State :=
  let frames := framesFromPlane s.plane pre s.emitted
  { s with carrier := s.carrier.emit frames, emitted := s.emitted ++ frames.map Prod.fst }

def absorb (listener : ℕ) (s : State) : State :=
  let (frames, carrier) := s.carrier.receive listener
  { s with carrier, planes := Function.update s.planes listener (spoolFrames (s.planes listener) frames) }

inductive Event where
  | put (key : String) (data : Bytes)
  | broadcast
  | absorb (listener : ℕ)

def Event.step (pre : String) (s : State) : Event → State
  | .put key data => { s with plane := s.plane.insert key data }
  | .broadcast => Broadcast.broadcast pre s
  | .absorb listener => Broadcast.absorb listener s

def run (pre : String) (events : List Event) : State := events.foldl (Event.step pre) .start

/-- The put writes a key that no pass has emitted, or the bytes it holds. -/
def Event.Fresh (s : State) : Event → Prop
  | .put key data => key ∈ s.emitted → s.plane.lookup key = some data
  | _ => True

/-- What the listeners hold are the emitter's bytes under the keys they have heard. -/
structure Heard (s : State) : Prop where
  sound : ∀ f ∈ s.carrier.air, f.1 ∈ s.emitted ∧ s.plane.lookup f.1 = some f.2
  emitted : ∀ k ∈ s.emitted, k ∈ s.carrier.air.map Prod.fst
  bound : ∀ i, s.carrier.offsets i ≤ s.carrier.air.length
  held : ∀ i k, (s.planes i).lookup k =
    if k ∈ (s.carrier.air.take (s.carrier.offsets i)).map Prod.fst then s.plane.lookup k else none

variable {s : State} {pre : String}

theorem Heard.start : Heard .start := ⟨nofun, nofun, fun _ => Nat.zero_le _, fun _ _ => rfl⟩

theorem lookup_spoolFrames {plane : Plane} {k : String} : ∀ (frames : List Frame) (into : Plane),
    (∀ f ∈ frames, plane.lookup f.1 = some f.2) →
    (spoolFrames into frames).lookup k = if k ∈ frames.map Prod.fst then plane.lookup k else into.lookup k
  | [], _, _ => by simp [spoolFrames]
  | f :: frames, into, h => by
    have ih := lookup_spoolFrames (k := k) frames (into.insert f.1 f.2) fun g hg => h g (List.mem_cons_of_mem _ hg)
    rw [spoolFrames, List.foldl_cons, ← spoolFrames, ih, Table.lookup_insert_of, List.map_cons]
    by_cases hk : k = f.1
    · subst hk
      simp [h f (List.mem_cons_self ..)]
    · simp only [hk, if_false, List.mem_cons, false_or]

theorem Heard.put {key : String} {data : Bytes} (h : Heard s) (hf : Event.Fresh s (.put key data)) :
    Heard { s with plane := s.plane.insert key data } := by
  have hsame : ∀ k ∈ s.emitted, (s.plane.insert key data).lookup k = s.plane.lookup k := fun k hk => by
    rw [Table.lookup_insert_of]
    split
    · next heq => exact heq ▸ (hf (heq ▸ hk)).symm
    · rfl
  refine ⟨fun f hm => ⟨(h.sound f hm).1, (hsame _ (h.sound f hm).1).trans (h.sound f hm).2⟩, h.emitted, h.bound, fun i k => ?_⟩
  refine (h.held i k).trans (ite_congr rfl (fun hk => ?_) fun _ => rfl)
  obtain ⟨f, hm, rfl⟩ := List.mem_map.mp hk
  exact (hsame _ (h.sound f (List.mem_of_mem_take hm)).1).symm

theorem mem_framesFromPlane {plane : Plane} {since : List String} {f : Frame} : f ∈ framesFromPlane plane pre since ↔
    plane.lookup f.1 = some f.2 ∧ f.1.startsWith pre = true ∧ f.1 ∉ since := by
  obtain ⟨k, data⟩ := f
  simp [framesFromPlane, Table.mem_toPairs]

theorem Heard.broadcast (h : Heard s) : Heard (broadcast pre s) := by
  refine ⟨fun f hm => ?_, fun k hk => ?_, fun i => ?_, fun i k => ?_⟩
  · rcases List.mem_append.mp hm with hm | hm
    · exact ⟨List.mem_append_left _ (h.sound f hm).1, (h.sound f hm).2⟩
    · exact ⟨List.mem_append_right _ (List.mem_map_of_mem hm), (mem_framesFromPlane.mp hm).1⟩
  · refine (List.map_append ▸ List.mem_append).mpr ?_
    exact (List.mem_append.mp hk).imp_left (h.emitted k)
  · exact (h.bound i).trans (List.length_append ▸ Nat.le_add_right ..)
  · refine (h.held i k).trans ?_
    change _ = if k ∈ ((s.carrier.air ++ _).take (s.carrier.offsets i)).map Prod.fst then s.plane.lookup k else none
    rw [List.take_append_of_le_length (h.bound i)]

theorem Heard.absorb (h : Heard s) (listener : ℕ) : Heard (absorb listener s) := by
  refine ⟨h.sound, h.emitted, fun i => ?_, fun i k => ?_⟩
  · change Function.update s.carrier.offsets listener s.carrier.air.length i ≤ _
    rcases eq_or_ne i listener with rfl | hi
    · exact (Function.update_self ..).le
    · exact (Function.update_of_ne hi ..).le.trans (h.bound i)
  · change (Function.update s.planes listener _ i).lookup k =
      if k ∈ (s.carrier.air.take (Function.update s.carrier.offsets listener _ i)).map Prod.fst then s.plane.lookup k
      else none
    rcases eq_or_ne i listener with rfl | hi
    · rw [Function.update_self, Function.update_self, List.take_length,
        lookup_spoolFrames _ _ fun f hf => (h.sound f (List.mem_of_mem_drop hf)).2, h.held]
      conv_rhs => rw [← List.take_append_drop (s.carrier.offsets i) s.carrier.air, List.map_append]
      simp only [List.mem_append]
      by_cases hnew : k ∈ (s.carrier.air.drop (s.carrier.offsets i)).map Prod.fst
      · rw [if_pos hnew, if_pos (.inr hnew)]
      · simp only [hnew, if_false, or_false]
    · rw [Function.update_of_ne hi, Function.update_of_ne hi]
      exact h.held i k

theorem Heard.step (h : Heard s) (e : Event) (hf : e.Fresh s) : Heard (e.step pre s) :=
  match e with
  | .put .. => h.put hf
  | .broadcast => h.broadcast
  | .absorb i => h.absorb i

def FreshRun (pre : String) : State → List Event → Prop
  | _, [] => True
  | s, e :: events => e.Fresh s ∧ FreshRun pre (e.step pre s) events

theorem Heard.run : ∀ (events : List Event) {s : State}, Heard s → FreshRun pre s events →
    Heard (events.foldl (Event.step pre) s)
  | [], _, h, _ => h
  | e :: events, _, h, hf => Heard.run events (h.step e hf.1) hf.2

/-- While no put changes the bytes of an emitted key, one more broadcast and one more absorb leave a listener with the
emitter's bytes. -/
theorem absorbed_latest (events : List Event) (hf : FreshRun pre .start events) (i : ℕ) (k : String)
    (hk : k.startsWith pre = true) :
    ((run pre (events ++ [.broadcast, .absorb i])).planes i).lookup k = (run pre events).plane.lookup k := by
  have h : Heard (Broadcast.broadcast pre (run pre events)) := (Heard.run events .start hf).broadcast
  have hlast := (h.absorb i).held i k
  have hheard : (Broadcast.absorb i (Broadcast.broadcast pre (run pre events))).carrier.offsets i =
      (Broadcast.broadcast pre (run pre events)).carrier.air.length := Function.update_self ..
  rw [hheard, show (Broadcast.absorb i (Broadcast.broadcast pre (run pre events))).carrier.air =
    (Broadcast.broadcast pre (run pre events)).carrier.air from rfl, List.take_length] at hlast
  rw [run, List.foldl_append]
  refine hlast.trans (ite_eq_left_iff.mpr fun hn => ?_)
  cases hv : (run pre events).plane.lookup k with
  | none => exact hv.symm
  | some data =>
    refine absurd (h.emitted k ?_) hn
    by_cases hold : k ∈ (run pre events).emitted
    · exact List.mem_append_left _ hold
    · exact List.mem_append_right _ (List.mem_map.mpr ⟨(k, data), mem_framesFromPlane.mpr ⟨hv, hk, hold⟩, rfl⟩)

/-- A leaf that is published again with other rows. -/
def rewritten : List Event :=
  [.put "mesh/leaf" [1], .broadcast, .absorb 0, .put "mesh/leaf" [2]]

theorem rewritten_is_lost : "mesh/leaf".startsWith "mesh/" = true ∧
    ((run "mesh/" (rewritten ++ [.broadcast, .absorb 0])).planes 0).lookup "mesh/leaf" = some [1] ∧
    (run "mesh/" rewritten).plane.lookup "mesh/leaf" = some [2] := by decide +kernel

theorem absorbed_latest_late : ((run "mesh/" ([.put "mesh/leaf" [1], .broadcast] ++ [.broadcast, .absorb 7])).planes 7).lookup
    "mesh/leaf" = (run "mesh/" [.put "mesh/leaf" [1], .broadcast]).plane.lookup "mesh/leaf" :=
  absorbed_latest [.put "mesh/leaf" [1], .broadcast] ⟨nofun, trivial, trivial⟩ 7 "mesh/leaf" (by decide +kernel)

end Mantle.Broadcast
