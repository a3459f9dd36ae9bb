import Mantle.Db.Keeps

/-!
# Mantle.Db.Watch — invariants of a node, in the middle of its transactions

Outside a transaction an invariant speaks of the file, inside one also of the numbers that are not in the file
yet.  `Watch` is such a pair, and `Bears W m n` says that `m` keeps it from `n` on.
-/

namespace Mantle

open Tx Relation

/-- An invariant with its two faces. -/
structure Watch where
  inside : Node → Prop
  outside : Node → Prop
  opens : ∀ n, outside n → inside n.begin
  commits : ∀ m, inside m → (m.dirty = true → m.cache.isSome) → outside m.flushed.end
  aborts : ∀ n m, outside n → SameEnv n.begin m → outside { m with db := n.db }.end
  undoes : ∀ n m, inside n → SameEnv n m → inside (rollbackTo n m)

variable {W : Watch} {A : Adm} {α β γ : Type}

/-- Inside a transaction: kept if the statement returns; an exception will be rolled back. -/
def BearsIn (W : Watch) (m : DbM α) (n : Node) : Prop :=
  W.inside n → Runs m n (fun _ n' => W.inside n' ∧ SameEnv n n') (SameEnv n)

/-- Kept inside a transaction if the statement returns, and outside however it ends. -/
def Bears (W : Watch) (m : DbM α) (n : Node) : Prop :=
  (n.inTxn = true → BearsIn W m n) ∧
  (n.inTxn = false → W.outside n →
    Runs m n (fun _ n' => W.outside n' ∧ n'.inTxn = false) fun n' => W.outside n' ∧ n'.inTxn = false)

theorem bears_of {m : DbM α} {n : Node} (h : W.inside n ∨ W.outside n → Bears W m n) : Bears W m n :=
  ⟨fun hi hin => (h (.inl hin)).1 hi hin, fun hi hout => (h (.inr hout)).2 hi hout⟩

/-! ### Rules for the statement forms -/

theorem bearsIn_bind {m : DbM α} {f : α → DbM β} {n : Node} (h : BearsIn W m n)
    (hf : ∀ a n', m n = .ok a n' → BearsIn W (f a) n') : BearsIn W (m >>= f) n := by
  intro hn
  have hm := h hn
  refine runs_bind ?_
  unfold Runs at hm ⊢
  cases hr : m n with
  | error e n' =>
    rw [hr] at hm
    exact hm
  | ok a n' =>
    rw [hr] at hm
    refine (hf a n' hr hm.1).mono ?_ fun n'' he => hm.2.trans he
    rintro b n'' ⟨hin, he⟩
    exact ⟨hin, hm.2.trans he⟩

theorem bears_pure (a : α) (n : Node) : Bears W (pure a) n :=
  ⟨fun _ hin => runs_pure ⟨hin, SameEnv.refl n⟩, fun hi hout => runs_pure ⟨hout, hi⟩⟩

theorem bears_throw (e : PyErr) (n : Node) : Bears W (throw e : DbM α) n :=
  ⟨fun _ _ => runs_throw (SameEnv.refl n), fun hi hout => runs_throw ⟨hout, hi⟩⟩

theorem bears_ite {c : Prop} [Decidable c] {m₁ m₂ : DbM α} {n : Node} (h₁ : c → Bears W m₁ n)
    (h₂ : ¬c → Bears W m₂ n) : Bears W (if c then m₁ else m₂) n := by
  split_ifs with hc
  · exact h₁ hc
  · exact h₂ hc

theorem bears_bind {m : DbM α} {f : α → DbM β} {n : Node} (h : Bears W m n)
    (hf : ∀ a n', m n = .ok a n' → Bears W (f a) n') : Bears W (m >>= f) n := by
  constructor
  · intro hi
    have hin := h.1 hi
    intro hn
    refine bearsIn_bind hin (fun a n' hr => ?_) hn
    have hm := hin hn
    unfold Runs at hm
    rw [hr] at hm
    exact (hf a n' hr).1 (hm.2.inTxn.trans hi)
  · intro hi hn
    have hm := h.2 hi hn
    refine runs_bind ?_
    unfold Runs at hm ⊢
    cases hr : m n with
    | error e n' =>
      rw [hr] at hm
      exact hm
    | ok a n' =>
      rw [hr] at hm
      exact (hf a n' hr).2 hm.2 hm.1

theorem bears_get {g : Node → DbM β} {n : Node} (h : Bears W (g n) n) : Bears W (get >>= g) n := h

theorem bears_discard {m : DbM α} {n : Node} (h : Bears W m n) : Bears W (discard m) n :=
  bears_bind h fun _ n' _ => bears_pure _ n'

theorem bearsIn_inner {m : DbM α} {n : Node} (hA : ∀ n n', W.inside n → Micro A n n' → W.inside n')
    (h : Inner A m n) : BearsIn W m n := by
  intro hn
  refine Runs.mono h ?_ fun _ he => he
  intro _ n' hm
  exact ⟨micros_induct hA hm hn, micros_sameEnv hm⟩

theorem step_outside (hA : ∀ n n', W.inside n → Micro A n n' → W.inside n') {n n' : Node}
    (hn : W.outside n) (h : Step A n n') : W.outside n' := by
  cases h with
  | commit h hc => exact W.commits _ (micros_induct hA h (W.opens n hn)) hc
  | abort h => exact W.aborts n _ hn h

theorem bears_safe {m : DbM α} {n : Node} (hA : ∀ n n', W.inside n → Micro A n n' → W.inside n')
    (h : Safe A m n) : Bears W m n := by
  refine ⟨fun hi => bearsIn_inner hA (h.1 hi), fun hi hout => ?_⟩
  have hsteps : ∀ n', Steps A n n' → W.outside n' ∧ n'.inTxn = false := fun n' hs =>
    ⟨steps_induct (fun _ _ => step_outside hA) hs hout, steps_inTxn hs hi⟩
  exact (h.2 hi).mono (fun _ n' hs => hsteps n' hs) hsteps

def Node.enter (n : Node) : Node := if n.inTxn then n else n.begin

theorem Node.enter_db (n : Node) : n.enter.db = n.db := by
  unfold Node.enter
  split_ifs <;> rfl

theorem bears_write {body : DbM α} {n : Node} (h : BearsIn W body n.enter) : Bears W (write body) n := by
  unfold Node.enter at h
  constructor
  · intro hi hin
    unfold Runs
    rw [write_join hi]
    rw [if_pos hi] at h
    exact h hin
  · intro hi hout
    rw [if_neg (by simp [hi])] at h
    have hb : Runs (do let a ← body; flush; pure a : DbM α) n.begin
        (fun _ n' => W.outside n'.end) (SameEnv n.begin) := by
      refine runs_bind ((h (W.opens n hout)).mono ?_ fun _ he => he)
      rintro a m ⟨hin, he⟩
      refine runs_bind ((flush_runs m).mono ?_ fun _ he' => he.trans he')
      rintro - n' ⟨rfl, hc⟩
      exact runs_pure (W.commits m hin hc)
    unfold Runs
    rw [write_own hi]
    cases hr : (do let a ← body; flush; pure a : DbM α) n.begin with
    | ok a n' =>
      have hq := hb.ok hr
      exact ⟨hq, rfl⟩
    | error e n' => exact ⟨W.aborts n n' hout (hb.error hr), rfl⟩

/-! ### Bulk writes -/

def Node.endsAt (n : Node) (m : DbM α) : Node :=
  match m n with
  | .ok _ n' => n'
  | .error _ n' => n'

theorem runs_endsAt {m : DbM α} {n : Node} {P : Node → Prop} (h : Runs m n (fun _ => P) P) :
    P (n.endsAt m) := by
  unfold Node.endsAt
  unfold Runs at h
  cases hm : m n with
  | ok a n' =>
    rw [hm] at h
    exact h
  | error e n' =>
    rw [hm] at h
    exact h

theorem runs_of_endsAt {m : DbM α} {n : Node} {P : Node → Prop} (h : P (n.endsAt m)) : Runs m n (fun _ => P) P := by
  unfold Node.endsAt at h
  unfold Runs
  cases hm : m n with
  | ok a n' =>
    rw [hm] at h
    exact h
  | error e n' =>
    rw [hm] at h
    exact h

def chunkHandled (one : γ → DbM ℕ) : Node → List γ → List (Node × γ)
  | _, [] => []
  | n, x :: xs => (n, x) :: chunkHandled one (n.endsAt (savepoint (one x))) xs

def bulkChunk (one : γ → DbM ℕ) (chunk : List γ) : DbM ℕ :=
  chunk.foldlM (fun k x => do
    let j ← savepoint (one x)
    pure (k + j)) 0

def bulkHandled (one : γ → DbM ℕ) : Node → List (List γ) → List (Node × γ)
  | _, [] => []
  | n, chunk :: chunks =>
    chunkHandled one n.enter chunk ++
      match write (bulkChunk one chunk) n with
      | .ok _ n' => bulkHandled one n' chunks
      | .error _ _ => []

theorem bearsIn_savepoint {m : DbM ℕ} {n : Node} (h : BearsIn W m n) : BearsIn W (savepoint m) n := by
  intro hin
  refine runs_bind (runs_attempt ((h hin).mono (fun _ _ h' => runs_pure h') ?_))
  intro n' he
  exact runs_pure ⟨W.undoes n n' hin he, he.origin, he.leaves, he.graphLeaves, he.inTxn, he.face,
    he.dirty⟩

theorem bearsIn_chunk {one : γ → DbM ℕ} : ∀ {xs : List γ} {k : ℕ} {n : Node},
    (∀ p ∈ chunkHandled one n xs, BearsIn W (one p.2) p.1) →
    BearsIn W (xs.foldlM (fun k x => do
      let j ← savepoint (one x)
      pure (k + j)) k) n
  | [], k, n, _ => fun hin => runs_pure ⟨hin, SameEnv.refl n⟩
  | x :: xs, k, n, h => by
    rw [List.foldlM_cons, bind_assoc]
    refine bearsIn_bind (bearsIn_savepoint (h (n, x) (by simp [chunkHandled]))) ?_
    intro j n' hr
    have hn' : n.endsAt (savepoint (one x)) = n' := by
      unfold Node.endsAt
      rw [hr]
    refine bearsIn_chunk fun p hp => h p ?_
    rw [chunkHandled, hn']
    exact List.mem_cons_of_mem _ hp

theorem bears_chunks {one : γ → DbM ℕ} : ∀ (chunks : List (List γ)) (handled : ℕ) (n : Node),
    (∀ p ∈ bulkHandled one n chunks, BearsIn W (one p.2) p.1) →
    Bears W (chunks.foldlM (fun handled chunk => do
      let k ← write (bulkChunk one chunk)
      pure (handled + k)) handled) n := by
  intro chunks
  induction chunks with
  | nil => exact fun handled n _ => bears_pure handled n
  | cons chunk chunks ih =>
    intro handled n h
    rw [List.foldlM_cons, bind_assoc]
    refine bears_bind (bears_write (bearsIn_chunk fun p hp => h p ?_)) ?_
    · rw [bulkHandled]
      exact List.mem_append_left _ hp
    · intro k n' hr
      refine ih _ n' fun p hp => h p ?_
      rw [bulkHandled, hr]
      exact List.mem_append_right _ hp

/-- **Bulk writes.**  What every item keeps in the state it is handled in, the bulk write keeps. -/
theorem bears_bulk {one : γ → DbM ℕ} {xs : List γ} (batch : ℕ) {n : Node}
    (h : ∀ p ∈ bulkHandled one n (chunked batch [] xs), BearsIn W (one p.2) p.1) :
    Bears W (bulk batch one xs) n := bears_chunks _ 0 n h

/-! ### Runs -/

mutual

/-- The act meets a condition on the node it starts from, and so does every act of a caller's transaction. -/
def Act.MeetsAt (P : Node → Act → Prop) : Act → Node → Prop
  | .transaction acts _, n => Act.AllMeetAt P acts n.enter
  | a, n => P n a

def Act.AllMeetAt (P : Node → Act → Prop) : List Act → Node → Prop
  | [], _ => True
  | a :: acts, n => a.MeetsAt P n ∧ ∀ n', exec a n = .ok ⟨⟩ n' → Act.AllMeetAt P acts n'

end

def Node.RunMeetsAt (P : Node → Act → Prop) : Node → List Act → Prop
  | _, [] => True
  | n, a :: acts => a.MeetsAt P n ∧ (n.after a).RunMeetsAt P acts

theorem Act.meetsAt_single {P : Node → Act → Prop} {a : Act} (ha : a.Single) (n : Node) :
    a.MeetsAt P n ↔ P n a := by
  cases a <;> first
    | exact ha.elim
    | simp only [Act.MeetsAt]

section Runs

variable {P : Node → Act → Prop}

theorem bears_exec (h : ∀ a n, a.Single → P n a → Bears W (exec a) n) :
    ∀ (a : Act) (n : Node), a.MeetsAt P n → Bears W (exec a) n := by
  refine Act.induct (Q := fun acts => ∀ n : Node, n.inTxn = true → Act.AllMeetAt P acts n → BearsIn W (execAll acts) n)
    ?_ ?_ ?_ ?_
  · exact fun a ha n hm => h a n ha ((Act.meetsAt_single ha n).mp hm)
  · intro acts raises ih n hm
    rw [Act.MeetsAt] at hm
    rw [exec]
    refine bears_write (bearsIn_bind (ih _ ?_ hm) ?_)
    · unfold Node.enter
      split_ifs with hi
      · exact hi
      · rfl
    · intro _ n' _ hin
      exact runs_ite (fun _ => runs_throw (SameEnv.refl n')) fun _ => runs_pure ⟨hin, SameEnv.refl n'⟩
  · exact fun n _ _ hin => runs_pure ⟨hin, SameEnv.refl n⟩
  · intro a acts iha ih n hi hm
    rw [Act.AllMeetAt] at hm
    rw [execAll]
    have ha := (iha n hm.1).1 hi
    intro hin
    refine bearsIn_bind ha (fun _ n' hr => ?_) hin
    have hm' := ha hin
    unfold Runs at hm'
    rw [hr] at hm'
    exact ih n' (hm'.2.inTxn.trans hi) (hm.2 n' hr)

/-- **Runs.**  An invariant kept by every single call that meets the condition holds after every run
whose acts do. -/
theorem bears_run (h : ∀ a n, a.Single → P n a → Bears W (exec a) n) :
    ∀ (acts : List Act) (n : Node), n.RunMeetsAt P acts → W.outside n → n.inTxn = false →
      W.outside (n.run acts) ∧ (n.run acts).inTxn = false
  | [], _, _, hn, hi => ⟨hn, hi⟩
  | a :: acts, n, hm, hn, hi => by
    have hr := (bears_exec h a n hm.1).2 hi hn
    have hafter : W.outside (n.after a) ∧ (n.after a).inTxn = false := by
      unfold Runs at hr
      unfold Node.after
      split at hr
      · rename_i heq
        rw [heq]
        exact hr
      · rename_i heq
        rw [heq]
        exact hr
    exact bears_run h acts (n.after a) hm.2 hafter.1 hafter.2

end Runs

end Mantle
