import Mathlib.Algebra.BigOperators.Intervals
import Mathlib.Algebra.Order.BigOperators.Group.Finset
import Mantle.Events.Bus

/-!
# Mantle.Events.Ledger — the numbers of the event log (`EventLog.append`, `prune`, `read_since`)

The next number of an origin is read off its highest row; retention takes rows from below and never the highest.
-/

namespace Mantle.Bus

variable {k : String × ℤ}

/-! ### What SQLite takes -/

/-- A number that can be bound. -/
def Bindable (n : ℤ) : Prop := intMin ≤ n ∧ n ≤ intMax

instance (n : ℤ) : Decidable (Bindable n) := inferInstanceAs (Decidable (_ ∧ _))

/-! ### Appending -/

/-- `append`: the head it returns, or nothing when the transaction is rolled back. -/
def EventLog.tryAppend (log : EventLog) (origin : Origin) (body : EventBody) (ok : Bool) :
    Option (Cursor × EventLog) :=
  if ok && decide (Bindable (log.lastSeq origin.val + 1)) then
    some (⟨[(origin.val, log.lastSeq origin.val + 1)]⟩, log.append origin body)
  else none

/-! ### Retention -/

/-- The numbers of an origin, from the last down. -/
def EventLog.seqs (log : EventLog) (o : String) : List ℤ :=
  ((log.rows.keys.filter fun k => k.1 = o).map Prod.snd).insertionSort (· ≥ ·)

/-- `max(0, int(keep_last)) - 1 if keep_last > 0 else 0` -/
def keepOffset (keepLast : ℤ) : ℤ := if 0 < keepLast then max 0 keepLast - 1 else 0

/-- The rows of the table without those that pass a test. -/
def EventLog.deleteIf (log : EventLog) (f : String × ℤ → Bool) : EventLog where
  rows := log.rows.eraseIf f
  named := by
    intro k hk
    refine log.named k ?_
    rw [← AList.mem_keys, ← AList.lookup_isSome, Table.lookup_eraseIf] at hk
    rw [← AList.mem_keys, ← AList.lookup_isSome]
    split_ifs at hk
    · cases hk
    · exact hk

/-- One turn of the loop of `prune`: what it removed, and the table. -/
def EventLog.pruneOrigin (log : EventLog) (keepLast : ℤ) (o : String) : ℕ × EventLog :=
  match (log.seqs o)[(keepOffset keepLast).toNat]? with
  | none => (0, log)
  | some keep =>
    ((log.rows.keys.filter fun k => k.1 = o ∧ k.2 < keep).length,
      log.deleteIf fun k => decide (k.1 = o ∧ k.2 < keep))

/-- `SELECT DISTINCT _origin`. -/
def EventLog.origins (log : EventLog) : List String := (log.rows.keys.map Prod.fst).dedup

def EventLog.pruneOrigins (log : EventLog) (keepLast : ℤ) : List String → ℕ × EventLog
  | [] => (0, log)
  | o :: os =>
    let (removed, log) := log.pruneOrigin keepLast o
    let (rest, log) := log.pruneOrigins keepLast os
    (removed + rest, log)

/-- `prune`: the offset is bound once for each origin. -/
def EventLog.prune (log : EventLog) (keepLast : ℤ) : Except PyErr (ℕ × EventLog) :=
  if log.origins ≠ [] ∧ ¬Bindable (keepOffset keepLast) then .error .overflowError
  else .ok (log.pruneOrigins keepLast log.origins)

/-- The table after it; one that raises is rolled back. -/
def EventLog.pruned (log : EventLog) (keepLast : ℤ) : EventLog :=
  match log.prune keepLast with
  | .ok (_, log) => log
  | .error _ => log

/-- How many rows of the origin are more recent. -/
def EventLog.newer (log : EventLog) (o : String) (n : ℤ) : ℕ :=
  (log.rows.keys.filter fun k => k.1 = o ∧ n < k.2).length

theorem EventLog.mem_deleteIf {log : EventLog} {f : String × ℤ → Bool} :
    k ∈ (log.deleteIf f).rows.keys ↔ k ∈ log.rows.keys ∧ f k = false := by
  rw [← AList.mem_keys, ← AList.mem_keys, ← AList.lookup_isSome, ← AList.lookup_isSome]
  unfold EventLog.deleteIf
  rw [Table.lookup_eraseIf]
  by_cases hf : f k = true <;> simp [hf]

theorem EventLog.newer_congr {log log' : EventLog} {o : String}
    (h : ∀ m, (o, m) ∈ log'.rows.keys ↔ (o, m) ∈ log.rows.keys) (n : ℤ) : log'.newer o n = log.newer o n := by
  refine List.Perm.length_eq ((List.perm_ext_iff_of_nodup (log'.rows.keys_nodup.filter _)
    (log.rows.keys_nodup.filter _)).mpr fun k => ?_)
  rw [List.mem_filter, List.mem_filter, decide_eq_true_iff]
  constructor
  · rintro ⟨hk, rfl, hn⟩
    exact ⟨(h k.2).mp hk, rfl, hn⟩
  · rintro ⟨hk, rfl, hn⟩
    exact ⟨(h k.2).mpr hk, rfl, hn⟩

theorem le_getElem?_iff {n : ℤ} : ∀ {l : List ℤ} {j : ℕ}, l.Pairwise (· > ·) → n ∈ l →
    ((∀ keep, l[j]? = some keep → keep ≤ n) ↔ (l.filter (n < ·)).length ≤ j)
  | x :: l, j, hl, hn => by
    obtain ⟨hx, hl⟩ := List.pairwise_cons.mp hl
    rcases List.mem_cons.mp hn with rfl | hn
    · have hnone : (n :: l).filter (n < ·) = [] := by
        refine List.filter_eq_nil_iff.mpr fun y hy => ?_
        rcases List.mem_cons.mp hy with rfl | hy
        · simp
        · simpa using (hx y hy).le
      rw [hnone]
      refine iff_of_true (fun keep hk => ?_) (Nat.zero_le j)
      rcases List.mem_cons.mp (List.mem_of_getElem? hk) with rfl | hmem
      · exact le_refl _
      · exact (hx keep hmem).le
    · have hlt : n < x := hx n hn
      rw [List.filter_cons_of_pos (by simpa using hlt), List.length_cons]
      cases j with
      | zero =>
        refine iff_of_false (fun h => ?_) (by omega)
        exact absurd (h x rfl) (not_le.mpr hlt)
      | succ j =>
        rw [List.getElem?_cons_succ, le_getElem?_iff hl hn]
        omega

theorem EventLog.seqs_perm (log : EventLog) (o : String) :
    (log.seqs o).Perm ((log.rows.keys.filter fun k => k.1 = o).map Prod.snd) := List.perm_insertionSort _ _

theorem EventLog.seqs_strict (log : EventLog) (o : String) : (log.seqs o).Pairwise (· > ·) := by
  have hnodup : ((log.rows.keys.filter fun k => k.1 = o).map Prod.snd).Nodup := by
    refine (log.rows.keys_nodup.filter _).map_on fun a ha b hb hab => ?_
    have ha' : a.1 = o := by simpa using (List.mem_filter.mp ha).2
    have hb' : b.1 = o := by simpa using (List.mem_filter.mp hb).2
    exact Prod.ext (ha'.trans hb'.symm) hab
  have hsorted : (log.seqs o).Pairwise (· ≥ ·) := List.pairwise_insertionSort _ _
  have hne : (log.seqs o).Pairwise (· ≠ ·) := (log.seqs_perm o).nodup_iff.mpr hnodup
  exact (hsorted.and hne).imp fun h => lt_of_le_of_ne h.1 h.2.symm

theorem EventLog.newer_eq (log : EventLog) (o : String) (n : ℤ) :
    log.newer o n = ((log.seqs o).filter (n < ·)).length := by
  rw [((log.seqs_perm o).filter _).length_eq, List.filter_map, List.length_map, List.filter_filter]
  unfold EventLog.newer
  congr 1
  refine List.filter_congr fun k _ => ?_
  rw [Bool.eq_iff_iff]
  simp [and_comm]

theorem keepOffset_eq (keepLast : ℤ) : keepOffset keepLast = max keepLast 1 - 1 := by
  unfold keepOffset
  split_ifs <;> omega

theorem EventLog.mem_pruneOrigin {log : EventLog} {keepLast : ℤ} {o : String} :
    k ∈ (log.pruneOrigin keepLast o).2.rows.keys ↔
      k ∈ log.rows.keys ∧ (k.1 = o → (log.newer o k.2 : ℤ) < max keepLast 1) := by
  have hoffset : ((keepOffset keepLast).toNat : ℤ) = max keepLast 1 - 1 := by
    rw [keepOffset_eq]
    omega
  -- a row of the origin stays unless it is below the entry at the offset
  have hkept : k ∈ (log.pruneOrigin keepLast o).2.rows.keys ↔ k ∈ log.rows.keys ∧
      (k.1 = o → ∀ keep, (log.seqs o)[(keepOffset keepLast).toNat]? = some keep → keep ≤ k.2) := by
    unfold EventLog.pruneOrigin
    cases hk : (log.seqs o)[(keepOffset keepLast).toNat]? with
    | none => simp
    | some keep =>
      dsimp only
      rw [EventLog.mem_deleteIf]
      simp
  rw [hkept]
  refine and_congr_right fun hmem => forall_congr' fun ho => ?_
  have hin : k.2 ∈ log.seqs o := by
    rw [(log.seqs_perm o).mem_iff]
    exact List.mem_map_of_mem (List.mem_filter.mpr ⟨hmem, by simpa using ho⟩)
  rw [le_getElem?_iff (log.seqs_strict o) hin, ← log.newer_eq]
  omega

theorem EventLog.mem_pruneOrigins {keepLast : ℤ} : ∀ {os : List String} {log : EventLog},
    os.Nodup → (k ∈ (log.pruneOrigins keepLast os).2.rows.keys ↔
      k ∈ log.rows.keys ∧ (k.1 ∈ os → (log.newer k.1 k.2 : ℤ) < max keepLast 1))
  | [], log, _ => by simp [EventLog.pruneOrigins]
  | o :: os, log, h => by
    obtain ⟨ho, hos⟩ := List.nodup_cons.mp h
    have hstep : (log.pruneOrigins keepLast (o :: os)).2 =
        ((log.pruneOrigin keepLast o).2.pruneOrigins keepLast os).2 := rfl
    rw [hstep, EventLog.mem_pruneOrigins hos, EventLog.mem_pruneOrigin, List.mem_cons, and_assoc]
    refine and_congr_right fun _ => ?_
    by_cases hk : k.1 = o
    · subst hk
      simp [ho]
    · have hsame : (log.pruneOrigin keepLast o).2.newer k.1 k.2 = log.newer k.1 k.2 := by
        refine EventLog.newer_congr (fun m => ?_) k.2
        rw [EventLog.mem_pruneOrigin]
        exact and_iff_left fun heq => absurd heq hk
      rw [hsame]
      simp [hk]

/-! ### The ledger -/

/-- The log, and the coordinates that successful appends stamped, in order. -/
structure Ledger where
  log : EventLog
  issued : List (String × ℤ)

/-- A process appends, with what becomes of its transaction; an operator trims. -/
inductive LedgerEvent
  | append (origin : Origin) (body : EventBody) (ok : Bool)
  | prune (keepLast : ℤ)

namespace Ledger

def start : Ledger := ⟨⟨∅, by simp⟩, []⟩

def step (s : Ledger) : LedgerEvent → Ledger
  | .append origin body ok =>
    match s.log.tryAppend origin body ok with
    | none => s
    | some (head, log) => ⟨log, s.issued ++ head.marks⟩
  | .prune keepLast => { s with log := s.log.pruned keepLast }

def run (s : Ledger) (events : List LedgerEvent) : Ledger := events.foldl step s

def numbers (s : Ledger) (o : String) : List ℤ := (s.issued.filter fun k => k.1 = o).map Prod.snd

/-- An origin was numbered from one on, and has the last of these numbers, down to some point. -/
structure Sound (s : Ledger) : Prop where
  counted : ∀ o, s.numbers o = (List.range (s.numbers o).length).map fun i : ℕ => (i : ℤ) + 1
  bound : ∀ o, ((s.numbers o).length : ℤ) ≤ intMax
  stored : ∀ o, ∃ low : ℤ, 0 ≤ low ∧ (low < (s.numbers o).length ∨ (s.numbers o).length = 0) ∧
    ∀ n, (o, n) ∈ s.log.rows.keys ↔ low < n ∧ n ≤ (s.numbers o).length

theorem lastSeq_eq {log : EventLog} {o : String} {low last : ℤ} (hnonneg : 0 ≤ low) (hlow : low < last ∨ last = 0)
    (hkeys : ∀ n, (o, n) ∈ log.rows.keys ↔ low < n ∧ n ≤ last) : log.lastSeq o = last := by
  unfold EventLog.lastSeq
  have hmem : ∀ n, n ∈ (log.rows.keys.filter fun k => k.1 = o).map Prod.snd ↔ low < n ∧ n ≤ last := by
    intro n
    rw [← hkeys n, List.mem_map]
    constructor
    · rintro ⟨k, hk, rfl⟩
      obtain ⟨hk, ho⟩ := List.mem_filter.mp hk
      rw [← of_decide_eq_true ho]
      exact hk
    · exact fun h => ⟨(o, n), List.mem_filter.mpr ⟨h, by simp⟩, rfl⟩
  rcases hlow with hlow | hzero
  · have hmax : ((log.rows.keys.filter fun k => k.1 = o).map Prod.snd).max? = some last :=
      List.max?_eq_some_iff.mpr ⟨(hmem last).mpr ⟨hlow, le_refl _⟩, fun n hn => ((hmem n).mp hn).2⟩
    rw [hmax]
    rfl
  · have hnil : (log.rows.keys.filter fun k => k.1 = o).map Prod.snd = [] := by
      refine List.eq_nil_iff_forall_not_mem.mpr fun n hn => ?_
      have := (hmem n).mp hn
      omega
    rw [hnil, hzero]
    rfl

variable {s : Ledger}

theorem Sound.lastSeq (h : s.Sound) (o : String) : s.log.lastSeq o = (s.numbers o).length := by
  obtain ⟨low, hnonneg, hlow, hkeys⟩ := h.stored o
  exact lastSeq_eq hnonneg (hlow.imp_right fun hz => by omega) hkeys

theorem Sound.start : start.Sound where
  counted := fun _ => rfl
  bound := fun _ => (by decide : (0 : ℤ) ≤ intMax)
  stored := fun o => ⟨0, le_refl _, .inr rfl, fun n => by
    have hnone : (o, n) ∉ Ledger.start.log.rows.keys := by simp [Ledger.start]
    have hlen : ((Ledger.start.numbers o).length : ℤ) = 0 := rfl
    rw [hlen]
    exact iff_of_false hnone fun h => absurd h.1 (not_lt.mpr h.2)⟩

theorem mem_keys_append {log : EventLog} {origin : Origin} {body : EventBody} {k : String × ℤ} :
    k ∈ (log.append origin body).rows.keys ↔
      k = (origin.val, log.lastSeq origin.val + 1) ∨ k ∈ log.rows.keys := by
  rw [← AList.mem_keys, ← AList.mem_keys]
  exact AList.mem_insert _

theorem Sound.append (h : s.Sound) (origin : Origin) (body : EventBody) (ok : Bool) :
    (s.step (.append origin body ok)).Sound := by
  unfold Ledger.step EventLog.tryAppend
  dsimp only
  split_ifs with hok
  · rw [Bool.and_eq_true, decide_eq_true_iff, h.lastSeq] at hok
    have hnumbers (o : String) : Ledger.numbers
        ⟨s.log.append origin body, s.issued ++ [(origin.val, s.log.lastSeq origin.val + 1)]⟩ o =
        s.numbers o ++ if origin.val = o then [((s.numbers o).length : ℤ) + 1] else [] := by
      unfold Ledger.numbers
      rw [List.filter_append, List.map_append]
      by_cases ho : origin.val = o
      · subst ho
        rw [h.lastSeq, List.filter_cons_of_pos (by simp), if_pos rfl]
        rfl
      · rw [List.filter_cons_of_neg (by simpa using ho), if_neg ho]
        rfl
    refine ⟨fun o => ?_, fun o => ?_, fun o => ?_⟩
    · simp only [hnumbers]
      by_cases ho : origin.val = o
      · rw [if_pos ho, List.length_append, List.length_singleton, List.range_succ, List.map_append, ← h.counted o]
        rfl
      · rw [if_neg ho, List.append_nil]
        exact h.counted o
    · simp only [hnumbers]
      by_cases ho : origin.val = o
      · subst ho
        rw [if_pos rfl, List.length_append, List.length_singleton]
        have := hok.2.2
        push_cast
        omega
      · rw [if_neg ho, List.append_nil]
        exact h.bound o
    · obtain ⟨low, hnonneg, hlow, hkeys⟩ := h.stored o
      simp only [hnumbers]
      by_cases ho : origin.val = o
      · subst ho
        rw [if_pos rfl, List.length_append, List.length_singleton]
        refine ⟨if (s.numbers origin.val).length = 0 then 0 else low, ?_, ?_, fun n => ?_⟩
        · split_ifs <;> omega
        · left
          split_ifs <;> push_cast <;> omega
        · rw [mem_keys_append, hkeys n, Prod.mk.injEq, h.lastSeq]
          split_ifs with hz
          · simp only [true_and]
            push_cast
            omega
          · simp only [true_and]
            push_cast
            omega
      · rw [if_neg ho, List.append_nil]
        refine ⟨low, hnonneg, hlow, fun n => ?_⟩
        rw [mem_keys_append, hkeys n, Prod.mk.injEq]
        exact or_iff_right fun heq => ho heq.1.symm
  · exact h

theorem Sound.newer (h : s.Sound) {o : String} {n : ℤ} (hn : (o, n) ∈ s.log.rows.keys) :
    (s.log.newer o n : ℤ) = (s.numbers o).length - n := by
  obtain ⟨low, hnonneg, -, hkeys⟩ := h.stored o
  obtain ⟨hlow, hle⟩ := (hkeys n).mp hn
  have hperm : (s.log.rows.keys.filter fun k => k.1 = o ∧ n < k.2).Perm
      ((List.range ((s.numbers o).length - n.toNat)).map fun i : ℕ => (o, n + 1 + i)) := by
    refine (List.perm_ext_iff_of_nodup (s.log.rows.keys_nodup.filter _) ?_).mpr fun k => ?_
    · refine List.nodup_range.map fun a b hab => ?_
      have := (Prod.mk.inj hab).2
      omega
    · obtain ⟨o', m⟩ := k
      rw [List.mem_filter, decide_eq_true_iff, List.mem_map]
      constructor
      · rintro ⟨hk, rfl, hlt⟩
        have hm := (hkeys m).mp hk
        exact ⟨(m - n - 1).toNat, List.mem_range.mpr (by omega), Prod.ext rfl (by simp only; omega)⟩
      · rintro ⟨i, hi, heq⟩
        obtain ⟨rfl, rfl⟩ := Prod.mk.inj heq
        have := List.mem_range.mp hi
        exact ⟨(hkeys _).mpr ⟨by omega, by omega⟩, rfl, by omega⟩
  unfold EventLog.newer
  rw [hperm.length_eq, List.length_map, List.length_range]
  omega

theorem Sound.mem_pruned (h : s.Sound) (keepLast : ℤ) (k : String × ℤ) :
    k ∈ (s.log.pruned keepLast).rows.keys ↔
      k ∈ s.log.rows.keys ∧ (s.log.newer k.1 k.2 : ℤ) < max keepLast 1 := by
  unfold EventLog.pruned EventLog.prune
  by_cases hbind : s.log.origins ≠ [] ∧ ¬Bindable (keepOffset keepLast)
  · rw [if_pos hbind]
    refine (and_iff_left_of_imp fun hk => ?_).symm
    -- more rows are asked for than there can be
    have hlarge : intMax < keepOffset keepLast := by
      have := hbind.2
      unfold Bindable at this
      rw [keepOffset_eq] at this ⊢
      have hmin : intMin ≤ 0 := by decide
      omega
    rw [keepOffset_eq] at hlarge
    have hpos := (s.log.named k hk).2
    have hbound := h.bound k.1
    rw [h.newer hk]
    omega
  · rw [if_neg hbind]
    dsimp only
    have hnodup : s.log.origins.Nodup := List.nodup_dedup _
    rw [EventLog.mem_pruneOrigins hnodup]
    refine and_congr_right fun hk => imp_iff_right ?_
    exact List.mem_dedup.mpr (List.mem_map_of_mem hk)

theorem Sound.prune (h : s.Sound) (keepLast : ℤ) : (s.step (.prune keepLast)).Sound where
  counted := h.counted
  bound := h.bound
  stored := fun o => by
    obtain ⟨low, hnonneg, hlow, hkeys⟩ := h.stored o
    have hnumbers : (s.step (.prune keepLast)).numbers o = s.numbers o := rfl
    rw [hnumbers]
    refine ⟨max low ((s.numbers o).length - max keepLast 1), by omega, by omega, fun n => ?_⟩
    have hmem := h.mem_pruned keepLast (o, n)
    constructor
    · intro hn
      obtain ⟨hn, hnew⟩ := hmem.mp hn
      rw [h.newer hn] at hnew
      have := (hkeys n).mp hn
      omega
    · intro hn
      have hin := (hkeys n).mpr ⟨by omega, hn.2⟩
      refine hmem.mpr ⟨hin, ?_⟩
      rw [h.newer hin]
      omega

theorem Sound.step (h : s.Sound) : ∀ e : LedgerEvent, (s.step e).Sound
  | .append origin body ok => h.append origin body ok
  | .prune keepLast => h.prune keepLast

theorem Sound.run : ∀ {events : List LedgerEvent} {s : Ledger}, s.Sound → (s.run events).Sound
  | [], _, h => h
  | e :: _, _, h => (h.step e).run

end Ledger

/-! ### Reading forward -/

def Cursor.past (c : Cursor) (events : List Event) : Cursor :=
  events.foldl (fun c e => c.advanced e.origin e.seq) c

def Cursor.width (c : Cursor) : ℕ := c.toDict.keys.length

/-- Every mark can be bound. -/
def Cursor.Fits (c : Cursor) : Prop := ∀ m ∈ c.toDict.toPairs, Bindable m.2

instance (c : Cursor) : Decidable c.Fits := inferInstanceAs (Decidable (∀ _ ∈ _, _))

/-- `read_since` without a filter.  The statement has a term for every mark, and room for so many of them. -/
def EventLog.readRows (room : ℕ) (log : EventLog) (c : Cursor) (limit : ℤ) : Except PyErr (List Event) :=
  if room < c.width then .error (.runtimeError "Expression tree is too large")
  else if c.Fits ∧ Bindable (max 1 limit) then .ok ((log.after c).take (max 1 limit).toNat)
  else .error .overflowError

/-- Batches of the given sizes, until one is empty. -/
def EventLog.readForward (room : ℕ) (log : EventLog) : ℕ → (ℕ → ℤ) → Cursor → Except PyErr (List Event)
  | 0, _, _ => .ok []
  | fuel + 1, sizes, c => (log.readRows room c (sizes 0)).bind fun batch =>
    if batch = [] then .ok []
    else (log.readForward room fuel (fun i => sizes (i + 1)) (c.past batch)).map (batch ++ ·)

/-- So many rows being there to read, the batch with this index is asked for. -/
def Asked (sizes : ℕ → ℤ) (rows : ℕ) : ℕ → Prop
  | 0 => True
  | i + 1 => ∑ j ∈ Finset.range i, max 1 (sizes j) < rows

/-- SQLite takes every statement and every number of a forward read. -/
structure Takes (room : ℕ) (log : EventLog) (sizes : ℕ → ℤ) (c : Cursor) : Prop where
  marks : c.Fits
  width : (c.past (log.after c)).width ≤ room
  sizes : ∀ i, Asked sizes (log.after c).length i → Bindable (max 1 (sizes i))

section Forward

variable {room : ℕ} {log : EventLog} {c : Cursor} {sizes : ℕ → ℤ}

theorem behind_past {e : Event} (hpos : 0 < e.seq) : ∀ {events : List Event} {c : Cursor},
    (c.past events).Behind e ↔ c.Behind e ∨ ∃ b ∈ events, e.origin = b.origin ∧ e.seq ≤ b.seq
  | [], c => by simp [Cursor.past]
  | b :: events, c => by
    have hstep : c.past (b :: events) = (c.advanced b.origin b.seq).past events := rfl
    rw [hstep, behind_past hpos, behind_advanced hpos, or_assoc]
    simp

theorem past_append (c : Cursor) (xs ys : List Event) : c.past (xs ++ ys) = (c.past xs).past ys :=
  List.foldl_append

theorem eq_of_key {a b : Event} (ha : a ∈ log.events) (hb : b ∈ log.events) (h : a.key = b.key) : a = b := by
  have hkey : (a.origin, a.seq) = (b.origin, b.seq) := toLex.injective h
  have hrow := EventLog.mem_events.mp ha
  rw [hkey, EventLog.mem_events.mp hb] at hrow
  obtain ⟨ho, hn⟩ := Prod.mk.inj hkey
  have hbody := Option.some.inj hrow
  obtain ⟨o, n, x⟩ := a
  obtain ⟨o', n', y⟩ := b
  simp only at ho hn hbody
  rw [ho, hn, hbody]

theorem events_nodup (log : EventLog) : log.events.Nodup := by
  have hkeys : (log.events.map fun e => (e.origin, e.seq)) = log.rows.keys := by
    unfold EventLog.events Table.toPairs AList.keys List.keys
    simp [Function.comp_def]
  exact List.Nodup.of_map _ (hkeys ▸ log.rows.keys_nodup)

theorem after_strict (log : EventLog) (c : Cursor) : (log.after c).Pairwise fun a b => a.key < b.key := by
  have hnodup : (log.after c).Nodup :=
    (List.perm_insertionSort _ _).nodup_iff.mpr ((events_nodup log).filter _)
  have hboth := (after_sorted log c).and hnodup
  refine hboth.imp_of_mem fun ha hb h => lt_of_le_of_ne h.1 fun heq => h.2 ?_
  exact eq_of_key (EventLog.mem_after.mp ha).1 (EventLog.mem_after.mp hb).1 heq

theorem eq_of_strict : ∀ {xs ys : List Event}, xs.Pairwise (fun a b => a.key < b.key) →
    ys.Pairwise (fun a b => a.key < b.key) → (∀ e, e ∈ xs ↔ e ∈ ys) → xs = ys := by
  intro xs ys hx hy h
  have hnodup : ∀ {zs : List Event}, zs.Pairwise (fun a b => a.key < b.key) → zs.Nodup := fun hz =>
    hz.imp fun hlt heq => absurd (heq ▸ hlt) (lt_irrefl _)
  refine List.Perm.eq_of_pairwise (fun a b _ _ hab hba => ?_) hx hy
    ((List.perm_ext_iff_of_nodup (hnodup hx) (hnodup hy)).mpr h)
  exact absurd (hab.trans hba) (lt_irrefl _)

theorem after_past (log : EventLog) (c : Cursor) (n : ℕ) :
    log.after (c.past ((log.after c).take n)) = (log.after c).drop n := by
  refine eq_of_strict (after_strict _ _) ((after_strict log c).sublist (List.drop_sublist _ _)) fun e => ?_
  rw [EventLog.mem_after]
  have hsplit := List.take_append_drop n (log.after c)
  have hapart := after_strict log c
  rw [← hsplit, List.pairwise_append] at hapart
  constructor
  · rintro ⟨he, hb⟩
    rw [behind_past (EventLog.seq_pos he), not_or] at hb
    have hin : e ∈ log.after c := EventLog.mem_after.mpr ⟨he, hb.1⟩
    rw [← hsplit, List.mem_append] at hin
    exact hin.resolve_left fun htake => hb.2 ⟨e, htake, rfl, le_refl _⟩
  · intro hdrop
    have hin : e ∈ log.after c := List.mem_of_mem_drop hdrop
    obtain ⟨he, hc⟩ := EventLog.mem_after.mp hin
    refine ⟨he, ?_⟩
    rw [behind_past (EventLog.seq_pos he), not_or]
    refine ⟨hc, ?_⟩
    rintro ⟨b, hb, ho, hle⟩
    have htake := mem_page hin hb ho hle
    exact absurd (hapart.2.2 e htake e hdrop) (lt_irrefl _)

theorem readRows_ok_iff {limit : ℤ} {batch : List Event} : log.readRows room c limit = .ok batch ↔
    (c.width ≤ room ∧ c.Fits ∧ Bindable (max 1 limit)) ∧ (log.after c).take (max 1 limit).toNat = batch := by
  unfold EventLog.readRows
  split_ifs with hw hf
  · simp only [false_iff, not_and]
    exact fun h => absurd hw (not_lt.mpr h.1)
  · rw [Except.ok.injEq]
    exact (and_iff_right ⟨not_lt.mp hw, hf⟩).symm
  · simp only [false_iff, not_and]
    exact fun h => absurd h.2 hf

theorem readForward_ok_iff {fuel : ℕ} {events : List Event} :
    log.readForward room (fuel + 1) sizes c = .ok events ↔
      ∃ batch, log.readRows room c (sizes 0) = .ok batch ∧
        (batch = [] ∧ events = [] ∨ batch ≠ [] ∧ ∃ rest,
          log.readForward room fuel (fun i => sizes (i + 1)) (c.past batch) = .ok rest ∧ events = batch ++ rest) := by
  rw [EventLog.readForward]
  constructor
  · intro h
    obtain ⟨batch, hread, h⟩ := bind_ok h
    refine ⟨batch, hread, ?_⟩
    split_ifs at h with hb
    · cases h
      exact .inl ⟨hb, rfl⟩
    · obtain ⟨rest, hrest, rfl⟩ := Mantle.map_ok h
      exact .inr ⟨hb, rest, hrest, rfl⟩
  · rintro ⟨batch, hread, ⟨rfl, rfl⟩ | ⟨hb, rest, hrest, rfl⟩⟩
    · rw [hread]
      rfl
    · rw [hread, Except.bind, if_neg hb, hrest]
      rfl

theorem width_le {c c' : Cursor} (h : ∀ o, (c.toDict.lookup o).isSome = true → (c'.toDict.lookup o).isSome = true) :
    c.width ≤ c'.width := by
  refine (List.Nodup.subperm c.toDict.keys_nodup fun o ho => ?_).length_le
  rw [← AList.mem_keys, ← AList.lookup_isSome] at ho ⊢
  exact h o ho

theorem lookup_advanced (c : Cursor) (o : String) (n : ℤ) (k : String) : (c.advanced o n).toDict.lookup k =
    if k = o then some (max n ((c.toDict.lookup o).getD 0)) else c.toDict.lookup k := by
  unfold Cursor.advanced
  rw [lookup_of, Table.lookup_insert_of]

theorem width_past : ∀ (events : List Event) (c : Cursor), c.width ≤ (c.past events).width
  | [], c => le_refl _
  | e :: events, c => by
    refine le_trans (width_le fun o ho => ?_) (width_past events (c.advanced e.origin e.seq))
    rw [lookup_advanced]
    split_ifs
    · rfl
    · exact ho

theorem fits_iff {c : Cursor} : c.Fits ↔ ∀ o n, c.toDict.lookup o = some n → Bindable n := by
  unfold Cursor.Fits
  constructor
  · exact fun h o n hn => h (o, n) (Table.mem_toPairs.mpr hn)
  · rintro h ⟨o, n⟩ hm
    exact h o n (Table.mem_toPairs.mp hm)

theorem Cursor.Fits.past : ∀ {events : List Event} {c : Cursor}, c.Fits → (∀ e ∈ events, Bindable e.seq) →
    (c.past events).Fits
  | [], _, h, _ => h
  | e :: events, c, h, he => by
    have hstep : (c.advanced e.origin e.seq).Fits := by
      rw [fits_iff] at h ⊢
      intro o n hn
      rw [lookup_advanced] at hn
      split_ifs at hn
      · have hseq := he e List.mem_cons_self
        have hold : Bindable ((c.toDict.lookup e.origin).getD 0) := by
          cases hl : c.toDict.lookup e.origin with
          | none => decide
          | some m => exact h _ _ hl
        rw [← Option.some.inj hn]
        unfold Bindable at hseq hold ⊢
        omega
      · exact h o n hn
    exact hstep.past fun x hx => he x (List.mem_cons_of_mem _ hx)

theorem asked_succ {n rows i : ℕ} (hn : (n : ℤ) = max 1 (sizes 0)) (hrows : 0 < rows) :
    Asked sizes rows (i + 1) ↔ Asked (fun j => sizes (j + 1)) (rows - n) i := by
  cases i with
  | zero =>
    refine iff_of_true ?_ trivial
    unfold Asked
    simpa using hrows
  | succ i =>
    change ∑ j ∈ Finset.range (i + 1), max 1 (sizes j) < (rows : ℤ) ↔
      ∑ j ∈ Finset.range i, max 1 (sizes (j + 1)) < ((rows - n : ℕ) : ℤ)
    rw [Finset.sum_range_succ']
    have hnonneg : 0 ≤ ∑ j ∈ Finset.range i, max 1 (sizes (j + 1)) :=
      Finset.sum_nonneg fun j _ => le_trans zero_le_one (le_max_left _ _)
    omega

theorem past_take_drop (n : ℕ) : (c.past ((log.after c).take n)).past (log.after (c.past ((log.after c).take n))) =
    c.past (log.after c) := by
  rw [after_past, ← past_append, List.take_append_drop]

theorem Takes.readForward (hseq : ∀ e ∈ log.events, Bindable e.seq) : ∀ {fuel : ℕ} {sizes : ℕ → ℤ} {c : Cursor},
    (log.after c).length < fuel → Takes room log sizes c → log.readForward room fuel sizes c = .ok (log.after c)
  | 0, _, _, hfuel, _ => absurd hfuel (Nat.not_lt_zero _)
  | fuel + 1, sizes, c, hfuel, h => by
    have hfirst : log.readRows room c (sizes 0) = .ok ((log.after c).take (max 1 (sizes 0)).toNat) :=
      readRows_ok_iff.mpr ⟨⟨(width_past _ c).trans h.width, h.marks, h.sizes 0 trivial⟩, rfl⟩
    refine readForward_ok_iff.mpr ⟨_, hfirst, ?_⟩
    by_cases hempty : log.after c = []
    · exact .inl ⟨by rw [hempty, List.take_nil], hempty⟩
    have hrows : 0 < (log.after c).length := List.length_pos_iff.mpr hempty
    have hn : (((max 1 (sizes 0)).toNat : ℕ) : ℤ) = max 1 (sizes 0) := by omega
    have hpast := after_past log c (max 1 (sizes 0)).toNat
    have hrest : Takes room log (fun i => sizes (i + 1)) (c.past ((log.after c).take (max 1 (sizes 0)).toNat)) := by
      refine ⟨h.marks.past fun e he => ?_, ?_, fun i hi => ?_⟩
      · exact hseq e (EventLog.mem_after.mp (List.mem_of_mem_take he)).1
      · rw [past_take_drop]
        exact h.width
      · rw [hpast, List.length_drop] at hi
        exact h.sizes (i + 1) ((asked_succ hn hrows).mpr hi)
    refine .inr ⟨?_, (log.after c).drop (max 1 (sizes 0)).toNat, ?_, (List.take_append_drop _ _).symm⟩
    · intro hnil
      rcases List.take_eq_nil_iff.mp hnil with hz | hz
      · omega
      · exact hempty hz
    · rw [← hpast]
      refine hrest.readForward hseq ?_
      rw [hpast, List.length_drop]
      omega

theorem takes_of_readForward : ∀ {fuel : ℕ} {sizes : ℕ → ℤ} {c : Cursor} {events : List Event},
    (log.after c).length < fuel → log.readForward room fuel sizes c = .ok events → Takes room log sizes c
  | 0, _, _, _, hfuel, _ => absurd hfuel (Nat.not_lt_zero _)
  | fuel + 1, sizes, c, events, hfuel, h => by
    obtain ⟨batch, hread, h⟩ := readForward_ok_iff.mp h
    obtain ⟨⟨hwidth, hfits, hsize⟩, rfl⟩ := readRows_ok_iff.mp hread
    have hn : (((max 1 (sizes 0)).toNat : ℕ) : ℤ) = max 1 (sizes 0) := by omega
    by_cases hempty : log.after c = []
    · refine ⟨hfits, by rw [hempty]; exact hwidth, fun i hi => ?_⟩
      rw [hempty] at hi
      cases i with
      | zero => exact hsize
      | succ i =>
        have hnonneg : 0 ≤ ∑ j ∈ Finset.range i, max 1 (sizes j) :=
          Finset.sum_nonneg fun j _ => le_trans zero_le_one (le_max_left _ _)
        exact absurd hi (not_lt.mpr hnonneg)
    have hrows : 0 < (log.after c).length := List.length_pos_iff.mpr hempty
    have hpast := after_past log c (max 1 (sizes 0)).toNat
    rcases h with ⟨hnil, -⟩ | ⟨-, rest, hrest, -⟩
    · rcases List.take_eq_nil_iff.mp hnil with hz | hz
      · omega
      · exact absurd hz hempty
    · have ih := takes_of_readForward (by rw [hpast, List.length_drop]; omega) hrest
      refine ⟨hfits, ?_, fun i hi => ?_⟩
      · have hw := ih.width
        rwa [past_take_drop] at hw
      · cases i with
        | zero => exact hsize
        | succ i =>
          refine ih.sizes i ?_
          rw [hpast, List.length_drop]
          exact (asked_succ hn hrows).mp hi

end Forward

namespace Ledger

theorem Sound.bindable {s : Ledger} (h : s.Sound) : ∀ e ∈ s.log.events, Bindable e.seq := by
  intro e he
  obtain ⟨low, hnonneg, -, hkeys⟩ := h.stored e.origin
  have hn := (hkeys e.seq).mp (EventLog.mem_keys he)
  have hbound := h.bound e.origin
  have hmin : intMin ≤ 0 := by decide
  exact ⟨by omega, by omega⟩

/-- **The event log is a gap-free ledger**, read whole exactly when SQLite takes its statements. -/
theorem ledger_gap_free (room : ℕ) (events : List LedgerEvent) :
    (∀ o, (start.run events).numbers o =
      (List.range ((start.run events).numbers o).length).map fun i : ℕ => (i : ℤ) + 1) ∧
    (∀ keepLast k, k ∈ ((start.run events).log.pruned keepLast).rows.keys ↔
      k ∈ (start.run events).log.rows.keys ∧ ((start.run events).log.newer k.1 k.2 : ℤ) < max keepLast 1) ∧
    ∀ c sizes, (∃ page, (start.run events).log.readForward room
          (((start.run events).log.after c).length + 1) sizes c = .ok page ∧
        page.Pairwise (fun a b => a.key < b.key) ∧
        ∀ e, e ∈ page ↔ e ∈ (start.run events).log.events ∧ ¬c.Behind e) ↔
      Takes room (start.run events).log sizes c := by
  have hs : (start.run events).Sound := Sound.start.run
  refine ⟨hs.counted, hs.mem_pruned, fun c sizes => ⟨?_, fun h => ?_⟩⟩
  · rintro ⟨page, hpage, -⟩
    exact takes_of_readForward (Nat.lt_succ_self _) hpage
  · exact ⟨_, h.readForward hs.bindable (Nat.lt_succ_self _), after_strict _ _, fun e => EventLog.mem_after⟩

def farCursor : Cursor := ⟨[("b", 2 ^ 63)]⟩

def oneAppend : List LedgerEvent :=
  [.append ⟨"a", by decide⟩ ⟨"artifact.created", none, none, none, none, [], "e"⟩ true]

theorem far_cursor_reads_nothing : (∃ e ∈ (start.run oneAppend).log.events, ¬farCursor.Behind e) ∧
    ∀ room fuel sizes page, (start.run oneAppend).log.readForward room (fuel + 1) sizes farCursor ≠ .ok page := by
  refine ⟨⟨⟨"a", 1, ⟨"artifact.created", none, none, none, none, [], "e"⟩⟩, by decide +kernel, ?_⟩, ?_⟩
  · rintro ⟨m, hm, -⟩
    have hnone : farCursor.toDict.lookup "a" = none := by decide +kernel
    rw [hnone] at hm
    cases hm
  · intro room fuel sizes page h
    obtain ⟨batch, hread, -⟩ := readForward_ok_iff.mp h
    have hfits : ¬farCursor.Fits := by decide +kernel
    exact hfits (readRows_ok_iff.mp hread).1.2.1

end Ledger

end Mantle.Bus
