import Mantle.Search.Lexical
import Mantle.Db.Constants

/-!
# Mantle.Search.Ingest — index jobs and the pool that runs them (`search/ingest/pipeline_unified.py`)

A job indexes the artifact as it was into the segment of its state, then takes it out of the segments it vacates; a
pool of workers runs the jobs side by side.
-/

namespace Mantle

namespace Ingest

open Lexical

/-! ### Fields -/

def descriptionThatAddsSomething (A : Analysis) (title description : String) : String :=
  if description = "" then ""
  else if title = "" then description
  else
    let titleStems := analyzeField A title
    if titleStems = [] then description
    else if (analyzeField A description).any fun s => decide (s ∉ titleStems) then description
    else ""

/-- `_body_offer`, whose projection is a parameter. -/
def bodyOffer (denseExcerpt : String → String) (content : String) : String :=
  if content.toList.all isPySpace then "" else denseExcerpt content

def fieldOf (fields : List (String × String)) (k : String) : String := (fields.lookup k).getD ""

def fieldsToIndex (A : Analysis) (denseExcerpt : String → String) (fields : List (String × String)) :
    List (String × String) :=
  if fields = [] then []
  else
    let body := bodyOffer denseExcerpt (fieldOf fields "content")
    let kept := descriptionThatAddsSomething A (fieldOf fields "title") (fieldOf fields "description")
    let stated := (fields.map fun f => if f.1 = "description" then (f.1, kept) else f).filter fun f =>
      f.1 ∈ ["title", "description", "tags"] && f.2 ≠ ""
    stated ++ if body ≠ "" then [("content", body)] else []

def nonIndexableContentTypes : List String :=
  ["application/vnd.agience.issuer+json", "application/vnd.agience.credential+json"]

/-! ### Jobs -/

inductive Segment
  | live
  | archived
deriving DecidableEq, Repr

def segmentForState (state : String) : Segment :=
  if stateOf [("state", .str state)] = stateArchived then .archived else .live

/-- Where an artifact is indexed: under which principal, in which collection, by which root. -/
structure Place where
  principal : String
  collection : String
  root : String
  principal_ne : principal ≠ ""
  collection_ne : collection ≠ ""
  root_ne : root ≠ ""

/-- A write: the version as the job captures it, the segments it leaves, and whether its writer is issued the
key. -/
structure Write where
  state : String
  contentType : String
  fields : List (String × String)
  vacate : List Segment
  issued : Bool

section Jobs

variable (A : Analysis) (denseExcerpt : String → String) (pl : Place)

/-- `index_artifact`, then `_sse_index_artifact`: nothing is called for content that is no search target or has
no fields. -/
def indexCalls (w : Write) : List (Segment × Lexical.Call) :=
  if w.contentType ∈ nonIndexableContentTypes then []
  else if w.fields = [] then []
  else
    let fields := fieldsToIndex A denseExcerpt w.fields
    if fields = [] then []
    else [(segmentForState w.state, .index pl.principal pl.collection pl.root fields w.issued)]

/-- The job of `enqueue_index_artifact`: what it calls on the indexes of the segments, in order. -/
def jobCalls (w : Write) : List (Segment × Lexical.Call) :=
  indexCalls A denseExcerpt pl w ++ w.vacate.map fun g => (g, .remove pl.principal pl.root w.issued)

end Jobs

/-! ### The pool (`index_queue.py`) -/

/-- The index of each segment, the jobs not started, what each worker has left; and, as history, the writes and the
calls so far. -/
structure Pool where
  index : Segment → PostingStore
  queue : List (List (Segment × Lexical.Call))
  running : List (List (Segment × Lexical.Call))
  writes : List Write
  ran : List (Segment × Lexical.Call)

/-- Nothing is queued and nothing runs. -/
def Pool.Idle (s : Pool) : Prop := s.queue = [] ∧ s.running = []

inductive Move
  | write (w : Write)
  | start
  | step (i : ℕ)

section Moves

variable (A : Analysis) (denseExcerpt : String → String) (pl : Place) (workers : ℕ)

/-- A write enqueues its job, a free worker starts the next job, a worker makes its next call or is done. -/
def Pool.move (s : Pool) : Move → Option Pool
  | .write w => some { s with queue := s.queue ++ [jobCalls A denseExcerpt pl w], writes := s.writes ++ [w] }
  | .start =>
    match s.queue with
    | [] => none
    | job :: rest =>
      if s.running.length < workers then some { s with queue := rest, running := s.running ++ [job] } else none
  | .step i =>
    match s.running[i]? with
    | none => none
    | some [] => some { s with running := s.running.eraseIdx i }
    | some (e :: rest) =>
      some { s with
        index := Function.update s.index e.1 (e.2.run A (s.index e.1))
        running := s.running.set i rest
        ran := s.ran ++ [e] }

def Pool.moves : Pool → List Move → Option Pool
  | s, [] => some s
  | s, m :: ms => (s.move A denseExcerpt pl workers m).bind fun s' => s'.moves ms

end Moves

/-! ### What is to be indexed -/

section Asked

variable (A : Analysis) (denseExcerpt : String → String) (pl : Place)

def Write.tokens (w : Write) : Set String :=
  {t | w.contentType ∉ nonIndexableContentTypes ∧ IsToken A pl.principal (fieldsToIndex A denseExcerpt w.fields) t}

/-- What a write asks of a segment: its version's tokens where it is in the segment, none where it left it. -/
def Write.asks (w : Write) (g : Segment) : Option (Set String) :=
  if g ∈ w.vacate then some ∅
  else if segmentForState w.state = g then some (w.tokens A denseExcerpt pl)
  else none

def asked (g : Segment) (writes : List Write) : Set String :=
  writes.foldl (fun S w => (w.asks A denseExcerpt pl g).getD S) ∅

def leaves (S : Set String) : Lexical.Call → Set String
  | .index p _ _ fields issued => if issued then {t | IsToken A p fields t} else S
  | .remove _ _ issued => if issued then ∅ else S

/-- What the last call that ran on a segment and was issued the key leaves. -/
def leftBy (g : Segment) (ran : List (Segment × Lexical.Call)) : Set String :=
  ran.foldl (fun S e => if e.1 = g then leaves A S e.2 else S) ∅

end Asked

/-! ### What a segment holds -/

/-- A segment holds the root in the slots of a set, in its collection alone, and its manifest lists them. -/
structure Holding (pl : Place) (st : PostingStore) (S : Set String) : Prop where
  slots : ∀ t c, Holds st pl.principal t pl.root c ↔ c = pl.collection ∧ t ∈ S
  opens : st.manifest.lookup (pl.principal, pl.root) ≠ some none
  lists : ∀ t ∈ S, t ∈ listed st pl.principal pl.root

def OfPlace (pl : Place) (k : Lexical.Call) : Prop :=
  (∃ fields issued, k = .index pl.principal pl.collection pl.root fields issued) ∨
    ∃ issued, k = .remove pl.principal pl.root issued

section Hold

variable {A : Analysis} {denseExcerpt : String → String} {pl : Place} {st : PostingStore} {S : Set String}
  {fields : List (String × String)} {workers : ℕ}

theorem listed_of_lookup {p a : String} {toks : List String} (h : st.manifest.lookup (p, a) = some (some toks)) :
    listed st p a = toks := by
  unfold listed
  rw [h]

theorem holding_index (h : Holding pl st S) : Holding pl
    ((Lexical.Call.index pl.principal pl.collection pl.root fields true).run A st)
    {t | IsToken A pl.principal fields t} := by
  have hr : (Lexical.Call.index pl.principal pl.collection pl.root fields true).Returns st :=
    ⟨pl.principal_ne, pl.collection_ne, pl.root_ne, rfl, h.opens⟩
  have hm := @manifest_reindex st pl.principal pl.root pl.collection pl.principal pl.root A fields
    (listed st pl.principal pl.root)
  rw [if_pos rfl] at hm
  rw [run_index hr]
  refine ⟨?_, ?_, ?_⟩
  · intro t c
    rw [holds_reindex, h.slots]
    simp only [true_and, Set.mem_ofPred_eq]
    constructor
    · rintro (⟨rfl, ht⟩ | ⟨hne, rfl, ht⟩)
      · exact ⟨rfl, ht⟩
      · exact absurd ⟨rfl, h.lists t ht⟩ hne
    · exact .inl
  · rw [hm]
    split_ifs <;> simp
  · intro t ht
    have hkeys := mem_newEntries_iff (c := pl.collection) (a := pl.root).mpr ht
    rw [if_neg (List.ne_nil_of_mem hkeys)] at hm
    rw [listed_of_lookup hm]
    exact hkeys

theorem holding_remove (h : Holding pl st S) :
    Holding pl ((Lexical.Call.remove pl.principal pl.root true).run A st) ∅ := by
  have hr : (Lexical.Call.remove pl.principal pl.root true).Returns st :=
    ⟨pl.principal_ne, pl.root_ne, rfl, h.opens⟩
  rw [run_remove hr]
  refine ⟨?_, ?_, fun t ht => absurd ht (Set.notMem_empty t)⟩
  · intro t c
    simp only [Set.mem_empty_iff_false, and_false, iff_false]
    intro ht
    split_ifs at ht with hnone
    · have hlisted := h.lists t ((h.slots t c).mp ht).2
      unfold listed at hlisted
      rw [hnone] at hlisted
      cases hlisted
    · rw [holds_remove] at ht
      exact ht.1 ⟨rfl, h.lists t ((h.slots t c).mp ht.2).2, rfl⟩
  · split_ifs with hnone
    · rw [hnone]
      simp
    · rw [manifest_remove, if_pos rfl]
      simp

/-- **One call.** -/
theorem holding_call (h : Holding pl st S) {k : Lexical.Call} (hk : OfPlace pl k) :
    Holding pl (k.run A st) (leaves A S k) := by
  have hdenied : ∀ k : Lexical.Call, ¬k.Returns st → Holding pl (k.run A st) S := by
    intro k hk
    rw [run_of_not_returns hk]
    exact h
  rcases hk with ⟨fields, issued, rfl⟩ | ⟨issued, rfl⟩
  · cases issued with
    | true => exact holding_index h
    | false => exact hdenied _ fun hr => absurd hr.2.2.2.1 Bool.false_ne_true
  · cases issued with
    | true => exact holding_remove h
    | false => exact hdenied _ fun hr => absurd hr.2.2.1 Bool.false_ne_true

theorem jobCalls_ofPlace (w : Write) : ∀ e ∈ jobCalls A denseExcerpt pl w, OfPlace pl e.2 := by
  intro e he
  rcases List.mem_append.mp he with he | he
  · unfold indexCalls at he
    dsimp only at he
    split_ifs at he
    · cases he
    · cases he
    · cases he
    · rw [List.mem_singleton.mp he]
      exact .inl ⟨_, _, rfl⟩
  · obtain ⟨g, -, rfl⟩ := List.mem_map.mp he
    exact .inr ⟨_, rfl⟩

/-- What every state of the pool satisfies: the jobs are the place's, and each segment holds what the calls that
ran on it left. -/
structure Pool.Sound (A : Analysis) (pl : Place) (s : Pool) : Prop where
  queue : ∀ job ∈ s.queue, ∀ e ∈ job, OfPlace pl e.2
  running : ∀ job ∈ s.running, ∀ e ∈ job, OfPlace pl e.2
  index : ∀ g, Holding pl (s.index g) (leftBy A g s.ran)

theorem leftBy_append (g : Segment) (ran : List (Segment × Lexical.Call)) (e : Segment × Lexical.Call) :
    leftBy A g (ran ++ [e]) = if e.1 = g then leaves A (leftBy A g ran) e.2 else leftBy A g ran := by
  unfold leftBy
  rw [List.foldl_append]
  rfl

theorem Pool.Sound.move {s s' : Pool} {m : Move} (h : s.Sound A pl)
    (hm : s.move A denseExcerpt pl workers m = some s') : s'.Sound A pl := by
  cases m with
  | write w =>
    cases hm
    refine ⟨?_, h.running, h.index⟩
    intro job hjob
    rcases List.mem_append.mp hjob with hjob | hjob
    · exact h.queue job hjob
    · rw [List.mem_singleton.mp hjob]
      exact jobCalls_ofPlace w
  | start =>
    unfold Pool.move at hm
    dsimp only at hm
    cases hq : s.queue with
    | nil =>
      rw [hq] at hm
      cases hm
    | cons job rest =>
      rw [hq] at hm
      dsimp only at hm
      split_ifs at hm
      cases hm
      refine ⟨fun j hj => h.queue j (hq ▸ List.mem_cons_of_mem _ hj), ?_, h.index⟩
      intro j hj
      rcases List.mem_append.mp hj with hj | hj
      · exact h.running j hj
      · rw [List.mem_singleton.mp hj]
        exact h.queue job (hq ▸ List.mem_cons_self)
  | step i =>
    unfold Pool.move at hm
    dsimp only at hm
    cases hi : s.running[i]? with
    | none =>
      rw [hi] at hm
      cases hm
    | some job =>
      rw [hi] at hm
      have hjob := h.running job (List.mem_of_getElem? hi)
      cases job with
      | nil =>
        cases hm
        exact ⟨h.queue, fun j hj => h.running j (List.mem_of_mem_eraseIdx hj), h.index⟩
      | cons e rest =>
        cases hm
        refine ⟨h.queue, ?_, ?_⟩
        · intro j hj
          rcases List.mem_or_eq_of_mem_set hj with hj | rfl
          · exact h.running j hj
          · exact fun e' he' => hjob e' (List.mem_cons_of_mem _ he')
        · intro g
          show Holding pl (Function.update s.index e.1 (e.2.run A (s.index e.1)) g) (leftBy A g (s.ran ++ [e]))
          rw [leftBy_append]
          by_cases hg : e.1 = g
          · subst hg
            rw [if_pos rfl, Function.update_self]
            exact holding_call (h.index e.1) (hjob e List.mem_cons_self)
          · rw [if_neg hg, Function.update_of_ne fun hg' => hg hg'.symm]
            exact h.index g

theorem Pool.Sound.moves : ∀ {ms : List Move} {s s' : Pool}, s.Sound A pl →
    s.moves A denseExcerpt pl workers ms = some s' → s'.Sound A pl
  | [], _, _, h, hm => by
    cases hm
    exact h
  | m :: ms, s, s', h, hm => by
    obtain ⟨s₁, h₁, hrest⟩ := Option.bind_eq_some_iff.mp hm
    exact (h.move h₁).moves hrest

end Hold

/-- A pool before the first write: no segment has the root, and the manifests open. -/
structure Pool.Start (pl : Place) (s : Pool) : Prop where
  idle : s.Idle
  writes : s.writes = []
  ran : s.ran = []
  slots : ∀ g t c, ¬Holds (s.index g) pl.principal t pl.root c
  opens : ∀ g, (s.index g).manifest.lookup (pl.principal, pl.root) ≠ some none

theorem Pool.Start.sound {A : Analysis} {pl : Place} {s : Pool} (h : s.Start pl) : s.Sound A pl := by
  refine ⟨?_, ?_, ?_⟩
  · rw [h.idle.1]
    exact fun _ hj => (nomatch hj)
  · rw [h.idle.2]
    exact fun _ hj => (nomatch hj)
  · intro g
    rw [h.ran]
    refine ⟨fun t c => ⟨fun ht => absurd ht (h.slots g t c), fun ht => absurd ht.2 (Set.notMem_empty t)⟩, h.opens g, ?_⟩
    exact fun t ht => absurd ht (Set.notMem_empty t)

/-- Each segment has the root exactly in the slots of the tokens that the last write touching it asks for. -/
def Pool.Converged (A : Analysis) (denseExcerpt : String → String) (pl : Place) (s : Pool) : Prop :=
  ∀ g t, Holds (s.index g) pl.principal t pl.root pl.collection ↔ t ∈ asked A denseExcerpt pl g s.writes

theorem Pool.Sound.converged_iff {A : Analysis} {denseExcerpt : String → String} {pl : Place} {s : Pool}
    (h : s.Sound A pl) :
    s.Converged A denseExcerpt pl ↔ ∀ g, leftBy A g s.ran = asked A denseExcerpt pl g s.writes := by
  unfold Pool.Converged
  constructor
  · intro hc g
    ext t
    rw [← hc g t, (h.index g).slots]
    exact ⟨fun ht => ⟨rfl, ht⟩, fun ht => ht.2⟩
  · intro hl g t
    rw [(h.index g).slots, hl g]
    exact ⟨fun ht => ht.2, fun ht => ⟨rfl, ht⟩⟩

section Serial

variable {A : Analysis} {denseExcerpt : String → String} {pl : Place}

def Write.Indexed (A : Analysis) (denseExcerpt : String → String) (pl : Place) (w : Write) : Prop :=
  w.issued = true ∧ indexCalls A denseExcerpt pl w ≠ []

/-- With one worker the calls that ran, are under way and are queued are those of the writes, in their order. -/
structure Pool.Serial (A : Analysis) (denseExcerpt : String → String) (pl : Place) (s : Pool) : Prop where
  alone : s.running.length ≤ 1
  order : s.ran ++ s.running.flatten ++ s.queue.flatten = s.writes.flatMap (jobCalls A denseExcerpt pl)

theorem Pool.Serial.move {s s' : Pool} {m : Move} (h : s.Serial A denseExcerpt pl)
    (hm : s.move A denseExcerpt pl 1 m = some s') : s'.Serial A denseExcerpt pl := by
  obtain ⟨halone, horder⟩ := h
  cases m with
  | write w =>
    cases hm
    refine ⟨halone, ?_⟩
    show s.ran ++ s.running.flatten ++ (s.queue ++ [_]).flatten = (s.writes ++ [w]).flatMap _
    rw [List.flatten_append, List.flatMap_append, ← List.append_assoc, horder]
    simp
  | start =>
    unfold Pool.move at hm
    dsimp only at hm
    cases hq : s.queue with
    | nil =>
      rw [hq] at hm
      cases hm
    | cons job rest =>
      rw [hq] at hm horder
      dsimp only at hm
      split_ifs at hm with hfree
      cases hm
      have hnone : s.running = [] := List.length_eq_zero_iff.mp (by omega)
      rw [hnone] at horder
      refine ⟨by simp [hnone], ?_⟩
      show s.ran ++ (s.running ++ [job]).flatten ++ rest.flatten = _
      rw [hnone, ← horder]
      simp
  | step i =>
    unfold Pool.move at hm
    dsimp only at hm
    cases hi : s.running[i]? with
    | none =>
      rw [hi] at hm
      cases hm
    | some job =>
      rw [hi] at hm
      have hone : s.running = [job] ∧ i = 0 := by
        obtain ⟨hlt, hget⟩ := List.getElem?_eq_some_iff.mp hi
        have hzero : i = 0 := by omega
        subst hzero
        obtain ⟨j, hj⟩ := List.length_eq_one_iff.mp (show s.running.length = 1 by omega)
        simp only [hj, List.getElem_cons_zero] at hget
        rw [hj, hget]
        exact ⟨rfl, rfl⟩
      obtain ⟨hrunning, rfl⟩ := hone
      rw [hrunning] at horder
      cases job with
      | nil =>
        cases hm
        refine ⟨by simp [hrunning], ?_⟩
        show s.ran ++ (s.running.eraseIdx 0).flatten ++ _ = _
        rw [hrunning, ← horder]
        rfl
      | cons e rest =>
        cases hm
        refine ⟨by simp [hrunning], ?_⟩
        show s.ran ++ [e] ++ (s.running.set 0 rest).flatten ++ _ = _
        rw [hrunning, ← horder]
        simp

theorem Pool.Serial.moves : ∀ {ms : List Move} {s s' : Pool}, s.Serial A denseExcerpt pl →
    s.moves A denseExcerpt pl 1 ms = some s' → s'.Serial A denseExcerpt pl
  | [], _, _, h, hm => by
    cases hm
    exact h
  | m :: ms, s, s', h, hm => by
    obtain ⟨s₁, h₁, hrest⟩ := Option.bind_eq_some_iff.mp hm
    exact (h.move h₁).moves hrest

theorem leaves_job {w : Write} (hw : w.Indexed A denseExcerpt pl) (g : Segment) (S : Set String) :
    (jobCalls A denseExcerpt pl w).foldl (fun S e => if e.1 = g then leaves A S e.2 else S) S =
      (w.asks A denseExcerpt pl g).getD S := by
  obtain ⟨hissued, hcalls⟩ := hw
  have hindex : (indexCalls A denseExcerpt pl w).foldl (fun S e => if e.1 = g then leaves A S e.2 else S) S =
      if segmentForState w.state = g then w.tokens A denseExcerpt pl else S := by
    have hne : w.contentType ∉ nonIndexableContentTypes ∧ w.fields ≠ [] ∧ fieldsToIndex A denseExcerpt w.fields ≠ [] := by
      unfold indexCalls at hcalls
      dsimp only at hcalls
      split_ifs at hcalls with htype hfields hindexed
      · exact absurd rfl hcalls
      · exact absurd rfl hcalls
      · exact absurd rfl hcalls
      · exact ⟨htype, hfields, hindexed⟩
    unfold indexCalls
    dsimp only
    rw [if_neg hne.1, if_neg hne.2.1, if_neg hne.2.2, List.foldl_cons, List.foldl_nil]
    by_cases hseg : segmentForState w.state = g
    · simp only [if_pos hseg, leaves, hissued, if_true, Write.tokens, hne.1, not_false_eq_true, true_and]
    · simp only [if_neg hseg]
  have hvacate : ∀ (gs : List Segment) (S : Set String),
      (gs.map fun g => (g, Lexical.Call.remove pl.principal pl.root w.issued)).foldl
        (fun S e => if e.1 = g then leaves A S e.2 else S) S = if g ∈ gs then ∅ else S := by
    intro gs
    induction gs with
    | nil => intro S; simp
    | cons g' gs ih =>
      intro S
      rw [List.map_cons, List.foldl_cons, ih]
      by_cases hg : g' = g
      · simp [hg, leaves, hissued]
      · simp [hg, Ne.symm hg]
  unfold jobCalls Write.asks
  rw [List.foldl_append, hindex, hvacate]
  split_ifs <;> rfl

/-- **One worker converges**: jobs that run one after the other, each of a version that is indexed, end with the
last one's tokens. -/
theorem one_worker_converges {s s' : Pool} {ms : List Move} (hstart : s.Start pl)
    (hrun : s.moves A denseExcerpt pl 1 ms = some s') (hidle : s'.Idle)
    (hindexed : ∀ w ∈ s'.writes, w.Indexed A denseExcerpt pl) : s'.Converged A denseExcerpt pl := by
  have hserial : s.Serial A denseExcerpt pl := by
    refine ⟨?_, ?_⟩
    · rw [hstart.idle.2]
      exact Nat.zero_le 1
    · rw [hstart.idle.1, hstart.idle.2, hstart.ran, hstart.writes]
      rfl
  have horder := (hserial.moves hrun).order
  rw [hidle.1, hidle.2, List.flatten_nil, List.append_nil, List.append_nil] at horder
  refine (hstart.sound.moves hrun).converged_iff.mpr fun g => ?_
  rw [horder]
  unfold leftBy asked
  have hfold : ∀ (ws : List Write) (S : Set String), (∀ w ∈ ws, w.Indexed A denseExcerpt pl) →
      (ws.flatMap (jobCalls A denseExcerpt pl)).foldl (fun S e => if e.1 = g then leaves A S e.2 else S) S =
        ws.foldl (fun S w => (w.asks A denseExcerpt pl g).getD S) S := by
    intro ws
    induction ws with
    | nil => exact fun _ _ => rfl
    | cons w ws ih =>
      intro S hws
      rw [List.flatMap_cons, List.foldl_append, leaves_job (hws w List.mem_cons_self), List.foldl_cons,
        ih _ fun w' hw' => hws w' (List.mem_cons_of_mem _ hw')]
  exact hfold s'.writes ∅ hindexed

end Serial

/-! ### Two edits side by side -/

end Ingest

end Mantle
