import Mantle.Db.Ledger

/-!
# Mantle.Db.Logic — the two judgements of the refinement, and their rules

Inside a transaction every statement is a run of `Micro` changes, or raises with the environment unchanged
(`Inner`).  Outside, every operation is a run of `Step`s (`Safe`).
-/

namespace Mantle

open Tx Relation

variable {n n' : Node} {γ : Type}

variable {A : Adm} {α β : Type}

/-! ### The two judgements -/

/-- Started in `n`, inside a transaction: changes of the ledger, or an exception. -/
def Inner (A : Adm) (m : DbM α) (n : Node) : Prop :=
  Runs m n (fun _ n' => Micros A n n') fun n' => SameEnv n n'

theorem inner_pure (a : α) (n : Node) : Inner A (pure a) n :=
  runs_pure (ReflTransGen.refl)

theorem inner_throw (e : PyErr) (n : Node) : Inner A (throw e : DbM α) n :=
  runs_throw (SameEnv.refl n)

theorem inner_bind {m : DbM α} {f : α → DbM β} (h : Inner A m n)
    (hf : ∀ a n', Micros A n n' → Inner A (f a) n') : Inner A (m >>= f) n := by
  refine runs_bind (h.mono ?_ fun _ he => he)
  intro a n' hm
  refine (hf a n' hm).mono ?_ ?_
  · intro b n'' hm'
    exact hm.trans hm'
  · intro n'' he
    exact (micros_sameEnv hm).trans he

theorem inner_read {f : Store → α} {g : α → DbM β} (h : Inner A (g (f n.db)) n) :
    Inner A (readDb f >>= g) n := h

theorem inner_get {g : Node → DbM β} (h : Inner A (g n) n) :
    Inner A (get >>= g) n := h

theorem inner_ofExcept {x : Except PyErr α} {g : α → DbM β} (h : ∀ a, x = .ok a → Inner A (g a) n) :
    Inner A (Tx.ofExcept x >>= g) n := by
  cases x with
  | error e => exact SameEnv.refl n
  | ok a => exact h a rfl

theorem inner_onDb {f : Store → Store} (h : Micro A n { n with db := f n.db }) :
    Inner A (onDb f) n := ReflTransGen.single h

theorem inner_ite {c : Prop} [Decidable c] {m₁ m₂ : DbM α} (h₁ : c → Inner A m₁ n)
    (h₂ : ¬c → Inner A m₂ n) : Inner A (if c then m₁ else m₂) n := runs_ite h₁ h₂

theorem inner_foldlM {f : β → γ → DbM β} {xs : List γ} {b : β}
    (h : ∀ x ∈ xs, ∀ b n', Micros A n n' → Inner A (f b x) n') : Inner A (xs.foldlM f b) n := by
  refine runs_foldlM (fun n' => Micros A n n') xs b n ReflTransGen.refl ?_
  intro x hx b' n' hm
  refine (h x hx b' n' hm).mono ?_ ?_
  · intro _ n'' hm'
    exact hm.trans hm'
  · intro n'' he
    exact (micros_sameEnv hm).trans he

theorem inner_savepoint {m : DbM ℕ} (h : Inner A m n) : Inner A (savepoint m) n := by
  refine runs_bind (runs_attempt ?_)
  refine h.mono (fun _ _ hm => hm) ?_
  intro n' he
  -- the file and the cached counter are put back; the face, the flag and the tally stay
  have hr : rollbackTo n n' = { n with
      face := n'.face, unplaced := n'.unplaced, dirty := n'.dirty } := by
    obtain ⟨h1, h2, h3, h4, -, -⟩ := he
    cases n
    cases n'
    simp_all [rollbackTo]
  change Micros A n (rollbackTo n n')
  rw [hr]
  exact ReflTransGen.single (Micro.env he.face he.dirty)

/-- Started outside a transaction: committed and aborted transactions, however it ends. -/
def Safe (A : Adm) (m : DbM α) (n : Node) : Prop :=
  (n.inTxn = true → Inner A m n) ∧
  (n.inTxn = false → Runs m n (fun _ n' => Steps A n n') fun n' => Steps A n n')

theorem step_inTxn (h : Step A n n') : n'.inTxn = false := by
  cases h <;> rfl

theorem steps_inTxn (h : Steps A n n') (hn : n.inTxn = false) :
    n'.inTxn = false := by
  induction h with
  | refl => exact hn
  | tail _ hs _ => exact step_inTxn hs

theorem safe_pure (a : α) (n : Node) : Safe A (pure a) n :=
  ⟨fun _ => inner_pure a n, fun _ => runs_pure ReflTransGen.refl⟩

theorem safe_throw (e : PyErr) (n : Node) : Safe A (throw e : DbM α) n :=
  ⟨fun _ => inner_throw e n, fun _ => runs_throw ReflTransGen.refl⟩

theorem safe_get {g : Node → DbM β} (h : Safe A (g n) n) : Safe A (get >>= g) n := h

theorem safe_read {f : Store → α} {g : α → DbM β} (h : Safe A (g (f n.db)) n) :
    Safe A (readDb f >>= g) n := h

theorem safe_ite {c : Prop} [Decidable c] {m₁ m₂ : DbM α} (h₁ : c → Safe A m₁ n)
    (h₂ : ¬c → Safe A m₂ n) : Safe A (if c then m₁ else m₂) n := by
  split_ifs with hc
  · exact h₁ hc
  · exact h₂ hc

/-- Two nodes whose stores write edges with the same leaf counts. -/
def SameLeaves (n n' : Node) : Prop := n'.leaves = n.leaves ∧ n'.graphLeaves = n.graphLeaves

theorem micros_sameLeaves (h : Micros A n n') : SameLeaves n n' :=
  ⟨(micros_sameEnv h).leaves, (micros_sameEnv h).graphLeaves⟩

theorem step_sameLeaves (h : Step A n n') : SameLeaves n n' := by
  cases h with
  | @commit m h hc =>
    have he := micros_sameEnv h
    have hf : m.flushed.leaves = m.leaves ∧ m.flushed.graphLeaves = m.graphLeaves := by
      unfold Node.flushed
      split <;> exact ⟨rfl, rfl⟩
    exact ⟨hf.1.trans he.leaves, hf.2.trans he.graphLeaves⟩
  | abort h => exact ⟨h.leaves, h.graphLeaves⟩

theorem steps_sameLeaves (h : Steps A n n') : SameLeaves n n' := by
  induction h with
  | refl => exact ⟨rfl, rfl⟩
  | tail _ hs ih =>
    have h1 := step_sameLeaves hs
    exact ⟨h1.1.trans ih.1, h1.2.trans ih.2⟩

theorem safe_bind {m : DbM α} {f : α → DbM β} (h : Safe A m n)
    (hf : ∀ a n', SameLeaves n n' → Safe A (f a) n') : Safe A (m >>= f) n := by
  constructor
  · intro hn
    refine inner_bind (h.1 hn) ?_
    intro a n' hm
    exact (hf a n' (micros_sameLeaves hm)).1 ((micros_sameEnv hm).inTxn.trans hn)
  · intro hn
    refine runs_bind ((h.2 hn).mono ?_ fun _ he => he)
    intro a n' hs
    refine ((hf a n' (steps_sameLeaves hs)).2 (steps_inTxn hs hn)).mono ?_ ?_
    · intro b n'' hs'
      exact hs.trans hs'
    · intro n'' hs'
      exact hs.trans hs'

theorem safe_foldlM {f : β → γ → DbM β} :
    ∀ {xs : List γ} {b : β} {n : Node},
      (∀ x ∈ xs, ∀ b n', SameLeaves n n' → Safe A (f b x) n') → Safe A (xs.foldlM f b) n
  | [], b, n, _ => safe_pure b n
  | x :: xs, b, n, h => by
    rw [List.foldlM_cons]
    refine safe_bind (h x (by simp) b n ⟨rfl, rfl⟩) ?_
    intro b' n' hl
    refine safe_foldlM ?_
    intro y hy b'' n'' hl'
    exact h y (by simp [hy]) b'' n'' ⟨hl'.1.trans hl.1, hl'.2.trans hl.2⟩

theorem flush_runs (n : Node) :
    Runs flush n (fun _ n' => n' = n.flushed ∧ (n.dirty = true → n.cache.isSome)) (SameEnv n) := by
  unfold flush
  refine runs_bind (runs_get ?_)
  refine runs_ite ?_ ?_
  · intro hd
    cases hc : n.cache with
    | none => exact runs_throw (SameEnv.refl n)
    | some c =>
      refine runs_bind (runs_ofExcept ?_ (SameEnv.refl n))
      intro c' hb
      refine runs_modify ⟨?_, fun _ => rfl⟩
      rw [bindInt_ok hb]
      simp [Node.flushed, hd, hc]
  · intro hd
    refine runs_pure ⟨?_, fun h => absurd h hd⟩
    unfold Node.flushed
    split
    · rename_i h _
      exact absurd h hd
    · rfl

theorem write_join {body : DbM α} (hn : n.inTxn = true) : write body n = body n := by
  simp [write, hn]

theorem write_own {body : DbM α} (hn : n.inTxn = false) :
    write body n =
      match (do let a ← body; flush; pure a : DbM α) n.begin with
      | .ok a n' => .ok a n'.end
      | .error e n' => .error e { n' with db := n.db }.end := by
  simp only [write, hn]
  rfl

theorem safe_write {body : DbM α} (h : ∀ m, SameLeaves n m → m.inTxn = true → Inner A body m) :
    Safe A (write body) n := by
  constructor
  · intro hn
    unfold Inner Runs
    rw [write_join hn]
    exact h n ⟨rfl, rfl⟩ hn
  · intro hn
    have hb : Runs (do let a ← body; flush; pure a : DbM α) n.begin
        (fun _ n' => ∃ m, Micros A n.begin m ∧ (m.dirty = true → m.cache.isSome) ∧ n' = m.flushed)
        (SameEnv n.begin) := by
      refine runs_bind ((h n.begin ⟨rfl, rfl⟩ rfl).mono ?_ fun _ he => he)
      intro a m hm
      refine runs_bind ((flush_runs m).mono ?_ ?_)
      · rintro - n' ⟨rfl, hc⟩
        exact ⟨m, hm, hc, rfl⟩
      · intro n' he
        exact (micros_sameEnv hm).trans he
    unfold Runs
    rw [write_own hn]
    cases hr : (do let a ← body; flush; pure a : DbM α) n.begin with
    | ok a n' =>
      obtain ⟨m, hm, hc, rfl⟩ := hb.ok hr
      exact ReflTransGen.single (Step.commit hm hc)
    | error e n' => exact ReflTransGen.single (Step.abort (hb.error hr))

theorem mem_chunked {batch : ℕ} :
    ∀ {acc xs c : List γ}, c ∈ chunked batch acc xs → ∀ x ∈ c, x ∈ acc ∨ x ∈ xs
  | acc, [], c, h, x, hx => by
    unfold chunked at h
    split_ifs at h
    · simp at h
    · rw [List.mem_singleton] at h
      exact .inl (h ▸ hx)
  | acc, y :: ys, c, h, x, hx => by
    unfold chunked at h
    simp only at h
    split_ifs at h
    · rcases List.mem_cons.mp h with rfl | h'
      · rcases List.mem_append.mp hx with hx | hx
        · exact .inl hx
        · exact .inr (by simp_all)
      · rcases mem_chunked h' x hx with hx' | hx'
        · simp at hx'
        · exact .inr (List.mem_cons_of_mem _ hx')
    · rcases mem_chunked h x hx with hx' | hx'
      · rcases List.mem_append.mp hx' with hx'' | hx''
        · exact .inl hx''
        · exact .inr (by simp_all)
      · exact .inr (List.mem_cons_of_mem _ hx')

theorem safe_bulk {batch : ℕ} {one : γ → DbM ℕ} {xs : List γ}
    (h : ∀ x ∈ xs, ∀ m, SameLeaves n m → Inner A (one x) m) : Safe A (bulk batch one xs) n := by
  refine safe_foldlM ?_
  intro chunk hchunk handled n' hl
  refine safe_bind (safe_write ?_) fun k n'' _ => safe_pure _ n''
  intro m hm _
  refine inner_foldlM ?_
  intro x hx k m' hm'
  have hl' := micros_sameLeaves hm'
  have hx' : x ∈ xs := by
    rcases mem_chunked hchunk x hx with h' | h'
    · simp at h'
    · exact h'
  refine inner_bind (inner_savepoint (h x hx' m' ?_)) fun _ m'' _ => inner_pure _ m''
  exact ⟨hl'.1.trans (hm.1.trans hl.1), hl'.2.trans (hm.2.trans hl.2)⟩

end Mantle
