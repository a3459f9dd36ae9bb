import Mathlib.Logic.Relation
import Mathlib.Data.List.Basic

/-!
# Mantle.Base.Tx — a small program logic for state with exceptions

`Runs m s Q E` says where `m` can end when started in `s`: `Q` if it returns, `E` if it raises.  `attempt` is a
savepoint: a failed body is undone and passed over.
-/

namespace Mantle.Tx

variable {e : ε}

variable {ε σ α β : Type}

/-- Started in `s`, `m` ends in a state satisfying `Q` if it returns and `E` if it raises. -/
def Runs (m : EStateM ε σ α) (s : σ) (Q : α → σ → Prop) (E : σ → Prop) : Prop :=
  match m s with
  | .ok a s' => Q a s'
  | .error _ s' => E s'

variable {m : EStateM ε σ α} {s : σ} {Q Q' : α → σ → Prop} {E E' : σ → Prop}

theorem Runs.mono (h : Runs m s Q E) (hQ : ∀ a s', Q a s' → Q' a s')
    (hE : ∀ s', E s' → E' s') : Runs m s Q' E' := by
  unfold Runs at h ⊢
  split at h
  · exact hQ _ _ h
  · exact hE _ h

theorem Runs.imp (h : Runs m s Q E) (hQ : ∀ a s', Q a s' → Q' a s') : Runs m s Q' E :=
  h.mono hQ fun _ h => h

theorem Runs.ok (h : Runs m s Q E) {a : α} {s' : σ} (hm : m s = .ok a s') : Q a s' := by
  unfold Runs at h
  rwa [hm] at h

theorem Runs.error (h : Runs m s Q E) {e : ε} {s' : σ} (hm : m s = .error e s') : E s' := by
  unfold Runs at h
  rwa [hm] at h

theorem Runs.and (h : Runs m s Q E) (h' : Runs m s Q' E') :
    Runs m s (fun a s' => Q a s' ∧ Q' a s') fun s' => E s' ∧ E' s' := by
  unfold Runs at h h' ⊢
  split at h
  · rename_i hm
    rw [hm] at h'
    exact ⟨h, h'⟩
  · rename_i hm
    rw [hm] at h'
    exact ⟨h, h'⟩

/-- The state a run that returns ends in. -/
def endState : EStateM.Result ε σ α → Option σ
  | .ok _ s => some s
  | .error _ _ => none

theorem endState_some {r : EStateM.Result ε σ α} {s : σ} (h : endState r = some s) : ∃ a, r = .ok a s := by
  cases r with
  | ok a s' =>
    cases h
    exact ⟨a, rfl⟩
  | error e s' => cases h

theorem runs_pure {a : α} (h : Q a s) : Runs (pure a : EStateM ε σ α) s Q E := h

theorem runs_throw {e : ε} (h : E s) : Runs (throw e : EStateM ε σ α) s Q E := h

theorem runs_get {Q : σ → σ → Prop} (h : Q s s) : Runs (get : EStateM ε σ σ) s Q E := h

theorem runs_modify {f : σ → σ} {Q : PUnit → σ → Prop} (h : Q ⟨⟩ (f s)) :
    Runs (modify f : EStateM ε σ PUnit) s Q E := h

theorem runs_bind {f : α → EStateM ε σ β} {Q : β → σ → Prop}
    (h : Runs m s (fun a s' => Runs (f a) s' Q E) E) : Runs (m >>= f) s Q E := by
  unfold Runs at h ⊢
  change (match EStateM.bind m f s with
    | .ok a s' => Q a s'
    | .error _ s' => E s')
  unfold EStateM.bind
  split at h <;> simp_all

theorem bind_of_ok {f : α → EStateM ε σ β} {a : α} {s' : σ} (h : m s = .ok a s') :
    (m >>= f) s = f a s' := by
  change EStateM.bind m f s = f a s'
  unfold EStateM.bind
  rw [h]

theorem bind_of_error {f : α → EStateM ε σ β} {e : ε} {s' : σ} (h : m s = .error e s') :
    (m >>= f) s = .error e s' := by
  change EStateM.bind m f s = .error e s'
  unfold EStateM.bind
  rw [h]

theorem runs_ite {c : Prop} [Decidable c] {m₁ m₂ : EStateM ε σ α} (h₁ : c → Runs m₁ s Q E)
    (h₂ : ¬c → Runs m₂ s Q E) : Runs (if c then m₁ else m₂) s Q E := by
  split_ifs with hc
  · exact h₁ hc
  · exact h₂ hc

theorem runs_guarded {c : Prop} [Decidable c] {w : EStateM ε σ β} {P : σ → Prop}
    (hm : ∀ s', P s' → Runs m s' Q E) (hw : c → Runs w s (fun _ => P) E) (hs : ¬c → P s) :
    Runs (if c then w >>= fun _ => m else m) s Q E := by
  refine runs_ite (fun hc => runs_bind ((hw hc).imp ?_)) fun hc => hm s (hs hc)
  intro _ s' h
  exact hm s' h

/-- Lift a pure fallible computation. -/
def ofExcept : Except ε α → EStateM ε σ α
  | .ok a => pure a
  | .error e => throw e

theorem runs_ofExcept {x : Except ε α} (h : ∀ a, x = .ok a → Q a s) (hE : E s) :
    Runs (ofExcept x) s Q E := by
  cases x with
  | error e => exact hE
  | ok a => exact h a rfl

/-! ### Loops over a list -/

theorem runs_foldlM {γ : Type} {f : β → γ → EStateM ε σ β} (I : σ → Prop) :
    ∀ (xs : List γ) (b : β) (s : σ), I s →
      (∀ x ∈ xs, ∀ b s, I s → Runs (f b x) s (fun _ => I) E) →
      Runs (xs.foldlM f b) s (fun _ => I) E
  | [], _, _, hs, _ => hs
  | x :: xs, b, s, hs, hf => by
    rw [List.foldlM_cons]
    refine runs_bind ((hf x (by simp) b s hs).imp ?_)
    intro b' s' hs'
    exact runs_foldlM I xs b' s' hs' fun y hy => hf y (by simp [hy])

/-! ### Savepoints -/

/-- Run `m`; if it raises, put the state back with `undo` and return `none`. -/
def attempt (undo : σ → σ → σ) (m : EStateM ε σ α) : EStateM ε σ (Option α) := fun s =>
  match m s with
  | .ok a s' => .ok (some a) s'
  | .error _ s' => .ok none (undo s s')

theorem runs_attempt {undo : σ → σ → σ} {Q : Option α → σ → Prop}
    (h : Runs m s (fun a s' => Q (some a) s') fun s' => Q none (undo s s')) :
    Runs (attempt undo m) s Q E := by
  unfold Runs at h ⊢
  unfold attempt
  split at h <;> simp_all

end Mantle.Tx

namespace Mantle

variable {α β ε : Type}

theorem bind_ok {x : Except ε α} {f : α → Except ε β} {b : β} (h : (x >>= f) = .ok b) :
    ∃ a, x = .ok a ∧ f a = .ok b := by
  cases x with
  | error e => cases h
  | ok a => exact ⟨a, rfl, h⟩

theorem map_ok {x : Except ε α} {f : α → β} {b : β} (h : x.map f = .ok b) :
    ∃ a, x = .ok a ∧ f a = b := by
  cases x with
  | error e => cases h
  | ok a => exact ⟨a, rfl, Except.ok.inj h⟩

theorem ok_of_toOption {x : Except ε α} {a : α} (h : x.toOption = some a) : x = .ok a := by
  cases x with
  | error e => cases h
  | ok b =>
    cases h
    rfl

theorem mapM_ok {f : α → Except ε β} :
    ∀ {xs : List α} {ys : List β}, xs.mapM f = .ok ys →
      ∀ y, y ∈ ys ↔ ∃ x ∈ xs, f x = .ok y
  | [], ys, h, y => by
    rw [List.mapM_nil] at h
    cases h
    simp
  | x :: xs, ys, h, y => by
    rw [List.mapM_cons] at h
    obtain ⟨b, hx, h⟩ := bind_ok h
    obtain ⟨bs, hxs, h⟩ := bind_ok h
    cases h
    rw [List.mem_cons, mapM_ok hxs y]
    simp only [List.exists_mem_cons_iff, hx, Except.ok.injEq, eq_comm]

theorem mapM_isOk {f : α → Except ε β} :
    ∀ {xs : List α}, (∃ ys, xs.mapM f = .ok ys) ↔ ∀ x ∈ xs, ∃ y, f x = .ok y
  | [] => by
    refine ⟨fun _ x hx => (by cases hx), fun _ => ⟨[], ?_⟩⟩
    rw [List.mapM_nil]
    rfl
  | x :: xs => by
    rw [List.mapM_cons, List.forall_mem_cons, ← mapM_isOk]
    cases f x with
    | error e => exact ⟨fun ⟨_, h⟩ => (by cases h), fun ⟨⟨_, h⟩, _⟩ => (by cases h)⟩
    | ok y =>
      cases xs.mapM f with
      | error e => exact ⟨fun ⟨_, h⟩ => (by cases h), fun ⟨_, ⟨_, h⟩⟩ => (by cases h)⟩
      | ok ys => exact ⟨fun _ => ⟨⟨y, rfl⟩, ys, rfl⟩, fun _ => ⟨y :: ys, rfl⟩⟩

theorem pairwise_mapM {f : α → Except ε β} {R : α → α → Prop} {T : β → β → Prop}
    (hRT : ∀ x y x' y', f x = .ok x' → f y = .ok y' → R x y → T x' y') : ∀ (xs : List α) (ys : List β),
    xs.mapM f = .ok ys → xs.Pairwise R → ys.Pairwise T
  | [], ys, h, _ => by
    cases h
    exact .nil
  | x :: xs, ys, h, hp => by
    rw [List.mapM_cons] at h
    obtain ⟨x', hx, h⟩ := bind_ok h
    obtain ⟨ys', hys, h⟩ := bind_ok h
    cases h
    obtain ⟨hhead, htail⟩ := List.pairwise_cons.mp hp
    refine List.pairwise_cons.mpr ⟨fun y' hy' => ?_, pairwise_mapM hRT xs ys' hys htail⟩
    obtain ⟨y, hy, hyy⟩ := (mapM_ok hys y').mp hy'
    exact hRT x y x' y' hx hyy (hhead y hy)

end Mantle
