import Mantle.Db.Counters
import Mantle.Mesh.Apply

/-!
# Mantle.Mesh.Consume — invariants of a store that also consumes

An invariant that follows the rules of the write path (`RowRules`) is kept by a segment whose stored documents meet
them.
-/

namespace Mantle

open Tx

variable {I : Store → Prop} {ok : Doc → Prop}

/-! ### Rules for the apply -/

/-- The documents a segment stores are fine, and so are the two the apply writes for itself. -/
structure SegmentOk (ok : Doc → Prop) (float : String → Flt) (items : List Doc) : Prop where
  stored : ∀ d ∈ keptItems items, ∀ d', storedForm float d = .ok d' → ok d'
  declined : ∀ db newly, ok (opDoc (declinedDoc db newly))
  consumed : ∀ db ids, ok (opDoc (consumedDoc db ids))

/-- What an invariant owes to an apply: its rows, the two rows the apply writes for itself, its edges. -/
structure SegmentKept (I : Store → Prop) (float : String → Flt) (items : List Doc) : Prop where
  rows : ∀ docs n, (∀ d' ∈ docs, ∃ d ∈ keptItems items, storedForm float d = .ok d') →
    Keeps I (putMany docs 500 false .keepLocal) n
  declined : ∀ db newly n, Keeps I (putOp (declinedDoc db newly)) n
  consumed : ∀ db ids n, Keeps I (putOp (consumedDoc db ids)) n
  links : ∀ stamped n, Keeps I (addEdges stamped 500 false) n

section Apply

variable {float : String → Flt} {items : List Doc} (hseg : SegmentKept I float items)
include hseg

theorem SegmentKept.enqueueConsumed (batch : List Doc) (n : Node) : Keeps I (enqueueConsumed batch) n :=
  keeps_get (keeps_ite (fun _ => keeps_pure _ n) fun _ => hseg.consumed _ _ n)

theorem SegmentKept.writeBatch {batch : List Doc} (hbatch : ∀ d ∈ batch, d ∈ keptItems items)
    (refused declined : ℕ) (n : Node) : Keeps I (writeBatch float batch refused declined) n := by
  refine keeps_ofExcept ?_
  intro docs hdocs
  have hstored : ∀ d' ∈ docs, ∃ d ∈ keptItems items, storedForm float d = .ok d' := by
    intro d' hd'
    obtain ⟨d, hd, hform⟩ := (mapM_ok hdocs d').mp hd'
    exact ⟨d, hbatch d hd, hform⟩
  refine keeps_bind (hseg.rows docs n hstored) fun written n₁ _ _ => ?_
  refine keeps_ite (fun _ => keeps_throw _ n₁) fun _ => ?_
  exact keeps_bind (hseg.enqueueConsumed docs n₁) fun _ n₂ _ _ => keeps_pure _ n₂

theorem SegmentKept.applyArtifacts (n : Node) : Keeps I (applyArtifacts float items) n := by
  refine keeps_ite (fun _ => keeps_pure _ n) fun _ => ?_
  have hsplit : Runs (splitUnordered (keptItems items)) n
      (fun split _ => ∀ d ∈ split.1, d ∈ keptItems items) fun _ => True := by
    refine runs_bind (runs_get (runs_bind ?_))
    unfold Runs
    cases recordDeclined n.db (newlyDeclined n.db (keptItems items)) n with
    | ok u n' => exact fun d hd => List.mem_of_mem_filter hd
    | error e n' => trivial
  have hrecord : Keeps I (recordDeclined n.db (newlyDeclined n.db (keptItems items))) n :=
    keeps_ite (fun _ => keeps_pure _ n) fun _ => hseg.declined _ _ n
  refine keeps_bind_of (keeps_get (keeps_bind hrecord fun _ n₁ _ _ => keeps_pure _ n₁)) hsplit ?_
  intro split n₁ hmem _ _
  exact keeps_ite (fun _ => keeps_pure _ n₁) fun _ => hseg.writeBatch hmem _ _ n₁

theorem SegmentKept.applyEdges (edges : List Doc) (n : Node) : Keeps I (applyEdges edges) n := by
  refine keeps_ite (fun _ => keeps_pure _ n) fun _ => keeps_get (keeps_ofExcept fun stamped _ => ?_)
  refine keeps_bind (hseg.links stamped n) fun handled n₁ _ _ => ?_
  exact keeps_ite (fun _ => keeps_throw _ n₁) fun _ => keeps_pure _ n₁

theorem SegmentKept.applySegment (edges : List Doc) (n : Node) :
    Keeps I (applySegment float items edges) n :=
  keeps_bind (hseg.applyArtifacts n) fun _ n₁ _ _ =>
    keeps_bind (hseg.applyEdges edges n₁) fun _ n₂ _ _ => keeps_pure _ n₂

end Apply

section Rules

variable (hI : RowRules I ok) {float : String → Flt} {items : List Doc}
include hI

theorem keeps_putOp {doc : Doc} {n : Node} (hok : ok (opDoc doc)) : Keeps I (putOp doc) n := by
  refine keeps_ite (fun _ => keeps_throw _ n) fun _ => ?_
  refine keeps_bind (keeps_putArtifact hI ?_) fun _ n' _ _ => keeps_pure _ n'
  simpa [putRows] using hok

theorem RowRules.segment (hseg : SegmentOk ok float items) : SegmentKept I float items where
  rows := by
    intro docs n hdocs
    refine keeps_putMany hI 500 .keepLocal fun d' hd' => ?_
    obtain ⟨d, hd, hform⟩ := hdocs d' hd'
    exact hseg.stored d hd d' hform
  declined := fun db newly _ => keeps_putOp hI (hseg.declined db newly)
  consumed := fun db ids _ => keeps_putOp hI (hseg.consumed db ids)
  links := fun stamped n => keeps_addEdges hI.toEdgeRules stamped 500 false n

theorem keeps_applySegment (hseg : SegmentOk ok float items) (edges : List Doc) (n : Node) :
    Keeps I (applySegment float items edges) n :=
  (hI.segment hseg).applySegment edges n

end Rules

/-! ### Runs -/

theorem Node.applied_ends (float : String → Flt) (n : Node) (items edges : List Doc) :
    Ends (applySegment float items edges) n (n.applied float items edges) := by
  unfold Node.applied
  cases h : applySegment float items edges n with
  | ok u n' => exact .inl ⟨u, h⟩
  | error e n' => exact .inr ⟨e, h⟩

/-- What happens to a store: a local act, or a segment of a peer. -/
inductive Event
  | act (a : Act)
  | consume (items edges : List Doc)

def Node.event (float : String → Flt) (n : Node) : Event → Node
  | .act a => n.after a
  | .consume items edges => n.applied float items edges

def Node.events (float : String → Flt) (n : Node) (events : List Event) : Node :=
  events.foldl (Node.event float) n

def Node.EventsMeet (float : String → Flt) (P : Store → Event → Prop) : Node → List Event → Prop
  | _, [] => True
  | n, e :: events => P n.db e ∧ (n.event float e).EventsMeet float P events

/-- **Runs.**  An invariant every event keeps that meets the condition holds after every run whose events
do. -/
theorem keeps_events {float : String → Flt} {P : Store → Event → Prop}
    (hact : ∀ a n, P n.db (.act a) → Keeps I (exec a) n)
    (hconsume : ∀ items edges n, P n.db (.consume items edges) →
      Keeps I (applySegment float items edges) n) :
    ∀ (events : List Event) (n : Node), n.EventsMeet float P events → I n.db → n.inTxn = false →
      I (n.events float events).db
  | [], _, _, hn, _ => hn
  | .act a :: events, n, hm, hn, hi => by
    obtain ⟨hn', hi'⟩ := (hact a n hm.1).ended (n.after_ends a) hn hi
    exact keeps_events hact hconsume events (n.after a) hm.2 hn' hi'
  | .consume items edges :: events, n, hm, hn, hi => by
    obtain ⟨hn', hi'⟩ := (hconsume items edges n hm.1).ended (n.applied_ends float items edges) hn hi
    exact keeps_events hact hconsume events (n.applied float items edges) hm.2 hn' hi'

/-! ### The counters -/

def Event.Counted (db : Store) : Event → Prop
  | .act a => a.Meets Act.Counted db
  | .consume items _ => ∀ d ∈ keptItems items, CountedAlike (normaliseLegacyState d)

theorem countedAlike_segment {float : String → Flt} {items : List Doc}
    (h : ∀ d ∈ keptItems items, CountedAlike (normaliseLegacyState d)) :
    SegmentOk CountedAlike float items where
  stored := by
    intro d hd d' hform
    refine (h d hd).congr ?_
    intro k hk
    refine normaliseContext_get hform ?_
    rintro rfl
    exact absurd hk (by decide)
  declined := by
    intro db newly c hc
    cases hc
    rfl
  consumed := by
    intro db ids c hc
    cases hc
    rfl

/-- **Counters never drift** in a run whose events are counted: the audit reports nothing. -/
theorem counters_never_drift (float : String → Flt) (origin : Origin) (leaves : ℕ+) (events : List Event)
    (h : (Node.fresh origin leaves).EventsMeet float Event.Counted events) :
    verifyCounters ((Node.fresh origin leaves).events float events).db = [] := by
  have hrules := counter_rowRules
  refine CounterInv.verified (keeps_events ?_ ?_ events _ h counterInv_fresh rfl)
  · exact fun a n ha => keeps_exec hrules.seq counter_exec a n ha
  · exact fun items edges n hok => keeps_applySegment hrules (countedAlike_segment hok) edges n

def consumedRow : List Event :=
  [.consume [[("id", .str "x"), ("content_type", .str "text/plain"), ("state", .str "committed"),
    ("_origin", .str "peer"), ("_seq", .int 1)]] []]

theorem eviction_drifts :
    ¬ ∀ (float : String → Flt) (origin : Origin) (leaves : ℕ+) (events : List Event),
      verifyCounters ((Node.fresh origin leaves).events float events).db = [] := by
  intro h
  refine absurd (h litFloat ⟨"here", by decide⟩ 4096 (consumedRow ++ [.act (.evictArtifact "x")])) ?_
  decide +kernel

theorem counters_never_drift_consumedRow :
    (Node.fresh ⟨"here", by decide⟩ 4096).EventsMeet litFloat Event.Counted consumedRow ∧
      verifyCounters ((Node.fresh ⟨"here", by decide⟩ 4096).events litFloat consumedRow).db = [] := by
  have h : (Node.fresh ⟨"here", by decide⟩ 4096).EventsMeet litFloat Event.Counted consumedRow := by
    refine ⟨?_, trivial⟩
    intro d hd c hc
    have hd' := List.mem_of_mem_filter (List.mem_of_mem_filter hd)
    rw [List.mem_singleton] at hd'
    subst hd'
    cases hc
    rfl
  exact ⟨h, counters_never_drift litFloat ⟨"here", by decide⟩ 4096 consumedRow h⟩

end Mantle
