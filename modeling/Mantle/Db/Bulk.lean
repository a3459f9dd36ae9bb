import Mantle.Db.Tables

/-!
# Mantle.Db.Bulk — what a bulk write that handled everything did to the tables

When the count is the number of items, no item was rolled back, and the tables went through the items one by one
(`Chain`).
-/

namespace Mantle

open Tx

section Chain

variable {α : Type} {R : α → Store → Store → Prop} {xs ys : List α} {a b c : Store}

/-- The tables after one item after the other; between two items neither table changes. -/
def Chain (R : α → Store → Store → Prop) : List α → Store → Store → Prop
  | [], a, b => SameTables a b
  | x :: xs, a, c => ∃ a' b, SameTables a a' ∧ R x a' b ∧ Chain R xs b c

theorem Chain.of_sameTables : ∀ {xs : List α} {a b c : Store}, SameTables a b → Chain R xs b c →
    Chain R xs a c
  | [], _, _, _, hab, h => hab.trans h
  | _ :: _, _, _, _, hab, ⟨a', b', ha, hr, h⟩ => ⟨a', b', hab.trans ha, hr, h⟩

theorem Chain.append : ∀ {xs : List α} {a b : Store}, Chain R xs a b → Chain R ys b c →
    Chain R (xs ++ ys) a c
  | [], _, _, h, h' => h'.of_sameTables h
  | _ :: _, _, _, ⟨a', b', ha, hr, h⟩, h' => ⟨a', b', ha, hr, h.append h'⟩

theorem Chain.single {x : α} (h : R x a b) : Chain R [x] a b :=
  ⟨a, b, SameTables.refl a, h, SameTables.refl b⟩

theorem Chain.then_sameTables (h : Chain R xs a b) (hbc : SameTables b c) : Chain R xs a c := by
  have hnil : Chain R [] b c := hbc
  simpa using h.append hnil

theorem Chain.keeps {J : Store → Prop} (hJ : OfTables J) :
    ∀ {xs : List α} {a b : Store}, Chain R xs a b → (∀ x ∈ xs, ∀ a b, R x a b → J a → J b) → J a → J b
  | [], _, _, h, _, ha => hJ _ _ h ha
  | x :: _, _, _, ⟨a', b', hs, hr, h⟩, hx, ha =>
    h.keeps hJ (fun y hy => hx y (by simp [hy])) (hx x (by simp) a' b' hr (hJ _ _ hs ha))

/-- So many of the items were handled; when they all were, the tables went through them. -/
def Handled (R : α → Store → Store → Prop) (xs : List α) (k : ℕ) (a b : Store) : Prop :=
  k ≤ xs.length ∧ (k = xs.length → Chain R xs a b)

theorem Handled.append {j k : ℕ} (h : Handled R xs j a b) (h' : Handled R ys k b c) :
    Handled R (xs ++ ys) (j + k) a c := by
  have hle := h.1
  have hle' := h'.1
  rw [Handled, List.length_append]
  refine ⟨by omega, fun he => ?_⟩
  exact (h.2 (by omega)).append (h'.2 (by omega))

theorem Handled.then_sameTables {k : ℕ} (h : Handled R xs k a b) (hbc : SameTables b c) :
    Handled R xs k a c := ⟨h.1, fun he => (h.2 he).then_sameTables hbc⟩

end Chain

theorem chunked_flatten {α : Type} (batch : ℕ) : ∀ (acc xs : List α),
    (chunked batch acc xs).flatten = acc ++ xs
  | acc, [] => by
    unfold chunked
    split_ifs with h
    · rw [List.isEmpty_iff.mp h]
      rfl
    · simp
  | acc, x :: xs => by
    unfold chunked
    dsimp only
    split_ifs
    · rw [List.flatten_cons, chunked_flatten batch [] xs]
      simp
    · rw [chunked_flatten batch (acc ++ [x]) xs]
      simp

section Bulk

variable {α : Type} {R : α → Store → Store → Prop} {n₀ : Node} {one : α → DbM ℕ}

/-- What is asked of one item: it counts for one, and keeps the node who it is. -/
def HandlesOne (R : α → Store → Store → Prop) (n₀ : Node) (one : α → DbM ℕ) (x : α) : Prop :=
  ∀ n, At n₀ (fun _ => True) n →
    Runs (one x) n (fun k n' => k = 1 ∧ At n₀ (R x n.db) n') (At n₀ fun _ => True)

theorem chunk_handled {a : Store} : ∀ {xs done : List α} {k : ℕ} {n : Node},
    (∀ x ∈ xs, HandlesOne R n₀ one x) → At n₀ (Handled R done k a) n →
    Runs (xs.foldlM (fun k x => do
        let j ← savepoint (one x)
        pure (k + j)) k) n (fun k => At n₀ (Handled R (done ++ xs) k a)) (At n₀ fun _ => True)
  | [], done, k, n, _, hn => by
    rw [List.append_nil]
    exact runs_pure hn
  | x :: xs, done, k, n, h, hn => by
    rw [List.foldlM_cons]
    refine runs_bind (runs_bind (runs_bind (runs_attempt ?_)))
    have hn' : At n₀ (fun _ => True) n := ⟨hn.origin, hn.graphLeaves, trivial⟩
    have hnext : ∀ {j : ℕ} {m : Node}, At n₀ (Handled R [x] j n.db) m →
        Runs (xs.foldlM (fun k x => do
          let j ← savepoint (one x)
          pure (k + j)) (k + j)) m (fun k => At n₀ (Handled R (done ++ x :: xs) k a))
          (At n₀ fun _ => True) := by
      intro j m hm
      have hstep : At n₀ (Handled R (done ++ [x]) (k + j) a) m :=
        ⟨hm.origin, hm.graphLeaves, hn.holds.append hm.holds⟩
      have hrest : ∀ y ∈ xs, HandlesOne R n₀ one y := fun y hy => h y (by simp [hy])
      have := chunk_handled hrest hstep
      rwa [List.append_assoc] at this
    refine (h x (by simp) n hn').mono ?_ ?_
    · rintro j m ⟨rfl, hm⟩
      refine runs_pure (runs_pure (hnext ⟨hm.origin, hm.graphLeaves, ?_⟩))
      exact ⟨le_refl 1, fun _ => Chain.single hm.holds⟩
    · -- the item is rolled back, and the count falls behind
      intro m hm
      refine runs_pure (runs_pure (hnext ⟨hm.origin, hm.graphLeaves, ?_⟩))
      exact ⟨Nat.zero_le 1, fun he => by cases he⟩

theorem handled_ofTables {xs : List α} {k : ℕ} {a : Store} : OfTables (Handled R xs k a) :=
  fun _ _ hs h => h.then_sameTables hs

/-- **A bulk write** that handled every item took the tables through them all. -/
theorem bulk_handled {xs : List α} (batch : ℕ) (h : ∀ x ∈ xs, HandlesOne R n₀ one x) {n : Node}
    (hn : At n₀ (fun _ => True) n) (hi : n.inTxn = false) :
    Runs (bulk batch one xs) n (fun k n' => At n₀ (Handled R xs k n.db) n' ∧ n'.inTxn = false)
      fun n' => n'.inTxn = false := by
  -- chunk after chunk
  have hchunks : ∀ (chunks : List (List α)) (done : List α) (k : ℕ) (m : Node),
      (∀ x ∈ chunks.flatten, HandlesOne R n₀ one x) → At n₀ (Handled R done k n.db) m →
      m.inTxn = false →
      Runs (chunks.foldlM (fun handled chunk => do
          let k ← write (chunk.foldlM (fun k x => do
            let j ← savepoint (one x)
            pure (k + j)) 0)
          pure (handled + k)) k) m
        (fun k n' => At n₀ (Handled R (done ++ chunks.flatten) k n.db) n' ∧ n'.inTxn = false)
        fun n' => n'.inTxn = false := by
    intro chunks
    induction chunks with
    | nil =>
      intro done k m _ hm hmi
      rw [List.flatten_nil, List.append_nil]
      exact runs_pure ⟨hm, hmi⟩
    | cons chunk chunks ih =>
      intro done k m hx hm hmi
      rw [List.foldlM_cons]
      refine runs_bind (runs_bind ?_)
      have hchunk : ∀ x ∈ chunk, HandlesOne R n₀ one x := fun x hxc => hx x (by simp [hxc])
      have hrest : ∀ x ∈ chunks.flatten, HandlesOne R n₀ one x := by
        intro x hxc
        refine hx x ?_
        rw [List.flatten_cons]
        exact List.mem_append_right _ hxc
      have hm₀ : At n₀ (fun _ => True) m := ⟨hm.origin, hm.graphLeaves, trivial⟩
      refine (write_at (Q := fun j => Handled R chunk j m.db) (fun _ => handled_ofTables) hm₀ hmi
        ?_).mono ?_ fun _ h => h.2
      · intro m' hdb hm'
        have hstart : At n₀ (Handled R [] 0 m.db) m' :=
          ⟨hm'.origin, hm'.graphLeaves, le_refl 0, fun _ => by rw [hdb]; exact SameTables.refl _⟩
        exact chunk_handled hchunk hstart
      · rintro j m' ⟨hm', hmi'⟩
        have := ih (done ++ chunk) (k + j) m' hrest
          ⟨hm'.origin, hm'.graphLeaves, hm.holds.append hm'.holds⟩ hmi'
        rw [List.append_assoc] at this
        exact runs_pure this
  have hflat : (chunked batch [] xs).flatten = xs := chunked_flatten batch [] xs
  have := hchunks (chunked batch [] xs) [] 0 n (by rw [hflat]; exact h)
    ⟨hn.origin, hn.graphLeaves, le_refl 0, fun _ => SameTables.refl _⟩ hi
  rw [hflat] at this
  exact this

end Bulk

/-! ### Consumed items -/

/-- What `put_many` does with a consumed document that it handles: its row under its own version where
that is newer, else nothing. -/
def DocHandled (me : String) (doc : Doc) (db db' : Store) : Prop :=
  ((incomingVersion (doc.get "_origin") (doc.get "_seq")).isSome ∧ verdictOf db doc ≠ .newer ∧
      SameTables db db') ∨
    verdictOf db doc = .newer ∧ ∃ origin s,
      incomingVersion (doc.get "_origin") (doc.get "_seq") = some (origin, s) ∧
      RowWritten me doc origin (doc.get "_seq") db db'

theorem putOne_versioned (onUnordered : OnUnordered) (doc : Doc) (n : Node) :
    Runs (putOne false onUnordered doc) n
      (fun _ _ => (incomingVersion (doc.get "_origin") (doc.get "_seq")).isSome) fun _ => True := by
  unfold putOne
  refine runs_ite (fun _ => runs_throw trivial) fun _ => ?_
  refine runs_bind ((versionFor_consumed doc n).mono ?_ fun _ _ => trivial)
  rintro v n₁ ⟨-, s, hv, -⟩
  unfold Runs
  split
  · rw [hv]
    rfl
  · trivial

theorem putOne_handlesOne (n₀ : Node) (doc : Doc) :
    HandlesOne (DocHandled n₀.origin) n₀ (putOne false .keepLocal) doc := by
  intro n hn
  refine ((putOne_sameEnv false .keepLocal doc n).and ((putOne_versioned .keepLocal doc n).and
    (putOne_tables .keepLocal doc n))).mono ?_ ?_
  · rintro k n' ⟨he, hver, hk, hcase⟩
    refine ⟨hk, hn.of_sameEnv he ?_⟩
    unfold oneRows at hcase
    rcases hcase with ⟨hrows, hs⟩ | ⟨hrows, origin, s, hv, hw⟩
    · refine .inl ⟨hver, fun hnew => ?_, hs⟩
      rw [hnew] at hrows
      cases hrows
    · refine .inr ⟨?_, origin, s, hv, hn.origin ▸ hw⟩
      revert hrows
      cases verdictOf n.db doc <;> simp
  · rintro n' ⟨he, -⟩
    exact hn.of_sameEnv he trivial

theorem addOne_handlesOne (n₀ : Node) (arg : EdgeArg) :
    HandlesOne EdgeHandled n₀ (fun e => addOne n₀.graphLeaves e false) arg := by
  intro n hn
  have henv := addOne_sameEnv arg false n
  rw [hn.graphLeaves] at henv
  refine (henv.and (addOne_handled n₀.graphLeaves arg n)).mono ?_ ?_
  · rintro k n' ⟨he, hk, h⟩
    exact ⟨hk, hn.of_sameEnv he h⟩
  · rintro n' ⟨he, -⟩
    exact hn.of_sameEnv he trivial

end Mantle
