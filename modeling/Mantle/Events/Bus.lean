import Mathlib.Data.String.Basic
import Mathlib.Data.Prod.Lex
import Mantle.Db.Seq

/-!
# Mantle.Events.Bus — the durable event log (`events/event_bus.py`)

A subscriber holds one mark per origin and reads what lies strictly after its marks, in `(origin, seq)` order; the
filter is applied to the page that comes back.
-/

namespace Mantle.Bus

/-! ### Globs (`fnmatch.fnmatchcase`) -/

/-- What stands between the brackets: single characters and ranges. -/
def inClass (c : Char) : List Char → Bool
  | a :: '-' :: b :: rest => (decide (a ≤ c) && decide (c ≤ b)) || inClass c rest
  | a :: rest => c == a || inClass c rest
  | [] => false

/-- The bracket expression that starts here, and what follows it: a `]` in the first place is a member.
None when it is never closed. -/
def bracket (pat : List Char) : Option (List Char × List Char) :=
  let (neg, pat) := match pat with
    | '!' :: rest => (['!'], rest)
    | _ => ([], pat)
  let (first, pat) := match pat with
    | ']' :: rest => ([']'], rest)
    | _ => ([], pat)
  match pat.span (· ≠ ']') with
  | (stuff, ']' :: rest) => some (neg ++ first ++ stuff, rest)
  | _ => none

def matchesClass (c : Char) : List Char → Bool
  | '!' :: stuff => !inClass c stuff
  | stuff => inClass c stuff

/-- A pattern, read by characters: `*`, `?`, a bracket expression, or the character itself.  The fuel is
the length of the pattern. -/
def globMatches : ℕ → List Char → List Char → Bool
  | _, [], name => name.isEmpty
  | 0, _ :: _, _ => false
  | n + 1, '*' :: pat, name => name.tails.any (globMatches n pat)
  | n + 1, '?' :: pat, name =>
    match name with
    | _ :: name => globMatches n pat name
    | [] => false
  | n + 1, '[' :: pat, name =>
    match bracket pat, name with
    | some (stuff, rest), c :: name => matchesClass c stuff && globMatches n rest name
    | none, c :: name => c == '[' && globMatches n pat name
    | _, [] => false
  | n + 1, p :: pat, name =>
    match name with
    | c :: name => c == p && globMatches n pat name
    | [] => false

def fnmatchcase (name pat : String) : Bool := globMatches pat.length pat.toList name.toList

example : fnmatchcase "artifact.invoke.started" "artifact.invoke.*" = true := by decide +kernel
example : fnmatchcase "b" "[!a-]" = true ∧ fnmatchcase "-" "[!a-]" = false := by decide +kernel

/-! ### Events and filters -/

/-- What a log row says of its event, beside the coordinates. -/
structure EventBody where
  name : String
  containerId : Option String
  artifactId : Option String
  contentType : Option String
  actorId : Option String
  containers : List String
  eventId : String
deriving DecidableEq, Repr

structure Event where
  origin : String
  seq : ℤ
  body : EventBody
deriving DecidableEq, Repr

structure EventFilter where
  containerId : Option String
  artifactId : Option String
  contentType : Option String
  eventNames : List String

/-- A field that is unset, or set to the empty text, narrows nothing. -/
def narrows (field : Option String) (holds : String → Bool) : Bool :=
  match field with
  | none => true
  | some x => x == "" || holds x

/-- `EventFilter.matches`: a container is matched directly or through the containers the event reaches. -/
def EventFilter.matchesEvent (f : EventFilter) (e : Event) : Bool :=
  narrows f.containerId (fun c => e.body.containerId == some c || e.body.containers.contains c) &&
  narrows f.artifactId (fun a => e.body.artifactId == some a) &&
  narrows f.contentType (fun ct => e.body.contentType == some ct) &&
  (f.eventNames.isEmpty || f.eventNames.any (fnmatchcase e.body.name))

/-! ### Cursors -/

/-- A durable subscriber's position: the last number it took responsibility for, by origin. -/
structure Cursor where
  marks : List (String × ℤ)
deriving DecidableEq, Repr

/-- Of two marks of one origin the later one in the tuple counts. -/
def Cursor.toDict (c : Cursor) : Table String ℤ := c.marks.foldl (fun d m => d.insert m.1 m.2) ∅

def Cursor.of (marks : Table String ℤ) : Cursor := ⟨marks.toPairs.insertionSort fun a b => a.1 ≤ b.1⟩

/-- Never backwards. -/
def Cursor.advanced (c : Cursor) (origin : String) (seq : ℤ) : Cursor :=
  .of (c.toDict.insert origin (max seq ((c.toDict.lookup origin).getD 0)))

/-- The event lies at or before the mark of its origin. -/
def Cursor.Behind (c : Cursor) (e : Event) : Prop := ∃ m ∈ c.toDict.lookup e.origin, e.seq ≤ m

theorem lookup_foldl_insert (k : String) : ∀ (marks : List (String × ℤ)) (d : Table String ℤ),
    (marks.map Prod.fst).Nodup → (marks.foldl (fun d m => d.insert m.1 m.2) d).lookup k =
      ((marks.find? fun m => m.1 = k).map Prod.snd).or (d.lookup k)
  | [], d, _ => by simp
  | m :: marks, d, h => by
    rw [List.map_cons, List.nodup_cons] at h
    rw [List.foldl_cons, lookup_foldl_insert k marks _ h.2, List.find?_cons, Table.lookup_insert_of]
    by_cases hk : m.1 = k
    · have hnone : marks.find? (fun m => m.1 = k) = none := by
        rw [List.find?_eq_none]
        intro m' hm' heq
        exact h.1 (List.mem_map.mpr ⟨m', hm', by simpa [hk] using heq⟩)
      simp [hk, hnone]
    · simp [hk, Ne.symm hk]

@[simp] theorem lookup_of (marks : Table String ℤ) (k : String) :
    (Cursor.of marks).toDict.lookup k = marks.lookup k := by
  have hperm := List.perm_insertionSort (fun a b : String × ℤ => a.1 ≤ b.1) marks.toPairs
  have hnodup : ((marks.toPairs.insertionSort fun a b => a.1 ≤ b.1).map Prod.fst).Nodup := by
    exact (hperm.map Prod.fst).nodup_iff.mpr marks.toPairs_keys
  unfold Cursor.toDict Cursor.of
  rw [lookup_foldl_insert k _ _ hnodup, AList.lookup_empty, Option.or_none]
  cases hk : marks.lookup k with
  | none =>
    rw [Option.map_eq_none_iff, List.find?_eq_none]
    rintro ⟨k', v⟩ hm heq
    have := Table.mem_toPairs.mp (hperm.mem_iff.mp hm)
    simp only [decide_eq_true_eq] at heq
    rw [heq, hk] at this
    cases this
  | some v =>
    have hmem := hperm.mem_iff.mpr (Table.mem_toPairs.mpr hk)
    cases hf : (marks.toPairs.insertionSort fun a b => a.1 ≤ b.1).find? fun m => m.1 = k with
    | none => exact absurd (List.find?_eq_none.mp hf _ hmem) (by simp)
    | some m =>
      obtain ⟨k', v'⟩ := m
      have hm' := Table.mem_toPairs.mp (hperm.mem_iff.mp (List.mem_of_find?_eq_some hf))
      have hk' : k' = k := by simpa using List.find?_some hf
      rw [hk', hk] at hm'
      rw [Option.some.inj hm']
      rfl

theorem behind_advanced {c : Cursor} {origin : String} {seq : ℤ} {e : Event} (hpos : 0 < e.seq) :
    (c.advanced origin seq).Behind e ↔ c.Behind e ∨ (e.origin = origin ∧ e.seq ≤ seq) := by
  unfold Cursor.Behind Cursor.advanced
  rw [lookup_of, Table.lookup_insert_of]
  by_cases ho : e.origin = origin
  · subst ho
    cases hm : c.toDict.lookup e.origin with
    | none =>
      simp only [if_true, Option.getD_none, Option.mem_def, Option.some.injEq, exists_eq_left', true_and,
        reduceCtorEq, false_and, exists_false, false_or]
      omega
    | some m =>
      simp only [if_true, Option.getD_some, Option.mem_def, Option.some.injEq, exists_eq_left', true_and]
      omega
  · simp [ho]

/-! ### The log -/

/-- The rows of `event_log` under `(_origin, _seq)`.  The origin is the store's or `mantle`, and numbers
start at one. -/
structure EventLog where
  rows : Table (String × ℤ) EventBody
  named : ∀ k ∈ rows.keys, k.1 ≠ "" ∧ 0 < k.2

def EventLog.events (log : EventLog) : List Event := log.rows.toPairs.map fun r => ⟨r.1.1, r.1.2, r.2⟩

def EventLog.lastSeq (log : EventLog) (origin : String) : ℤ :=
  (((log.rows.keys.filter fun k => k.1 = origin).map Prod.snd).max?).getD 0

theorem EventLog.mem_events {log : EventLog} {e : Event} :
    e ∈ log.events ↔ log.rows.lookup (e.origin, e.seq) = some e.body := by
  unfold EventLog.events
  rw [List.mem_map]
  constructor
  · rintro ⟨⟨⟨o, n⟩, b⟩, hm, rfl⟩
    exact Table.mem_toPairs.mp hm
  · intro h
    exact ⟨((e.origin, e.seq), e.body), Table.mem_toPairs.mpr h, rfl⟩

theorem EventLog.mem_keys {log : EventLog} {e : Event} (h : e ∈ log.events) :
    (e.origin, e.seq) ∈ log.rows.keys := by
  rw [← AList.mem_keys, ← AList.lookup_isSome, EventLog.mem_events.mp h]
  rfl

theorem EventLog.seq_pos {log : EventLog} {e : Event} (h : e ∈ log.events) : 0 < e.seq :=
  (log.named _ (EventLog.mem_keys h)).2

theorem EventLog.lastSeq_nonneg (log : EventLog) (origin : String) : 0 ≤ log.lastSeq origin := by
  unfold EventLog.lastSeq
  cases hm : ((log.rows.keys.filter fun k => k.1 = origin).map Prod.snd).max? with
  | none => exact le_refl _
  | some m =>
    obtain ⟨k, hk, rfl⟩ := List.mem_map.mp (List.max?_mem hm)
    exact (log.named k (List.mem_of_mem_filter hk)).2.le

theorem EventLog.seq_le_lastSeq {log : EventLog} {e : Event} (h : e ∈ log.events) :
    e.seq ≤ log.lastSeq e.origin := by
  have hmem : e.seq ∈ (log.rows.keys.filter fun k => k.1 = e.origin).map Prod.snd :=
    List.mem_map.mpr ⟨_, List.mem_filter.mpr ⟨EventLog.mem_keys h, by simp⟩, rfl⟩
  unfold EventLog.lastSeq
  cases hm : ((log.rows.keys.filter fun k => k.1 = e.origin).map Prod.snd).max? with
  | none =>
    rw [List.max?_eq_none_iff] at hm
    rw [hm] at hmem
    cases hmem
  | some m => exact (List.max?_le_iff hm).mp (le_refl m) _ hmem

/-- Allocation and insert in one transaction. -/
def EventLog.append (log : EventLog) (origin : Origin) (body : EventBody) : EventLog where
  rows := log.rows.insert (origin.val, log.lastSeq origin.val + 1) body
  named := by
    intro k hk
    rw [← AList.mem_keys, AList.mem_insert] at hk
    rcases hk with rfl | hk
    · exact ⟨origin.property, by have := log.lastSeq_nonneg origin.val; simp only; omega⟩
    · exact log.named k (AList.mem_keys.mp hk)

theorem EventLog.mem_append {log : EventLog} {origin : Origin} {body : EventBody} {e : Event} :
    e ∈ (log.append origin body).events ↔
      e = ⟨origin.val, log.lastSeq origin.val + 1, body⟩ ∨ e ∈ log.events := by
  obtain ⟨o, n, b⟩ := e
  rw [EventLog.mem_events, EventLog.mem_events, EventLog.append, Table.lookup_insert_of]
  simp only [Prod.mk.injEq, Event.mk.injEq]
  by_cases hk : o = origin.val ∧ n = log.lastSeq origin.val + 1
  · obtain ⟨rfl, rfl⟩ := hk
    rw [if_pos ⟨rfl, rfl⟩]
    have hnone : (⟨origin.val, log.lastSeq origin.val + 1, b⟩ : Event) ∉ log.events := by
      intro h
      have := EventLog.seq_le_lastSeq h
      simp only at this
      omega
    rw [EventLog.mem_events] at hnone
    simp only [Option.some.injEq, true_and, hnone, or_false]
    exact eq_comm
  · rw [if_neg hk]
    constructor
    · exact .inr
    · rintro (⟨h1, h2, -⟩ | h)
      · exact absurd ⟨h1, h2⟩ hk
      · exact h

/-- `ORDER BY _origin, _seq`. -/
def Event.key (e : Event) : String ×ₗ ℤ := toLex (e.origin, e.seq)

def EventLog.after (log : EventLog) (c : Cursor) : List Event :=
  (log.events.filter fun e =>
    match c.toDict.lookup e.origin with
    | none => true
    | some m => decide (m < e.seq)).insertionSort fun a b => a.key ≤ b.key

/-- `read_since(cursor, event_filter=…, limit=…)`: the limit first, then the filter. -/
def EventLog.readSince (log : EventLog) (c : Cursor) (f : EventFilter) (limit : ℤ) : List Event :=
  ((log.after c).take (max 1 limit).toNat).filter f.matchesEvent

theorem EventLog.mem_after {log : EventLog} {c : Cursor} {e : Event} :
    e ∈ log.after c ↔ e ∈ log.events ∧ ¬c.Behind e := by
  unfold EventLog.after Cursor.Behind
  rw [List.mem_insertionSort, List.mem_filter]
  cases c.toDict.lookup e.origin with
  | none => simp
  | some m => simp

theorem after_sorted (log : EventLog) (c : Cursor) : (log.after c).Pairwise fun a b => a.key ≤ b.key :=
  List.pairwise_insertionSort _ _

theorem mem_page {log : EventLog} {c : Cursor} {n : ℕ} {a b : Event} (ha : a ∈ log.after c)
    (hb : b ∈ (log.after c).take n) (ho : a.origin = b.origin) (hseq : a.seq ≤ b.seq) :
    a ∈ (log.after c).take n := by
  have hsplit := ha
  rw [← List.take_append_drop n (log.after c), List.mem_append] at hsplit
  rcases hsplit with hin | hout
  · exact hin
  · -- a row beyond the page is not below one of the page, so it is the same row
    have hs := after_sorted log c
    rw [← List.take_append_drop n (log.after c), List.pairwise_append] at hs
    have hle := hs.2.2 b hb a hout
    have hba : b.seq = a.seq := by
      rcases Prod.Lex.toLex_le_toLex.mp hle with hlt | ⟨-, hle⟩
      · exact absurd hlt (by rw [ho]; exact lt_irrefl _)
      · omega
    have hrow := EventLog.mem_events.mp (EventLog.mem_after.mp ha).1
    have hrow' := EventLog.mem_events.mp (EventLog.mem_after.mp (List.mem_of_mem_take hb)).1
    rw [← ho, hba, hrow] at hrow'
    have : a = b := by
      obtain ⟨o, n, x⟩ := a
      obtain ⟨o', n', x'⟩ := b
      simp only at ho hba hrow'
      rw [ho, hba, Option.some.inj hrow']
    rw [this]
    exact hb

end Mantle.Bus
