import Mathlib.Logic.Function.Basic
import Mathlib.Data.List.Basic

/-!
# Mantle.Base.Copies — calls that read a shared value and write it back later

`Copies` is a shared value with any number of calls in it, each of which holds a copy read earlier, and keeps which
calls have written since.
-/

namespace Mantle.Run

variable {σ α : Type}

/-- `P` holds at every step, of the state the step is taken from. -/
def Along (step : σ → α → σ) (P : σ → α → Prop) : σ → List α → Prop
  | _, [] => True
  | s, a :: as => P s a ∧ Along step P (step s a) as

variable {step : σ → α → σ} {P Q : σ → α → Prop} {Inv : σ → Prop}

theorem along_inv (hstep : ∀ s a, Inv s → P s a → Inv (step s a)) : ∀ (as : List α) (s : σ), Inv s →
    Along step P s as → Inv (as.foldl step s)
  | [], _, hs, _ => hs
  | a :: as, s, hs, h => along_inv hstep as (step s a) (hstep s a hs h.1) h.2

theorem along_append : ∀ (as bs : List α) (s : σ), Along step P s (as ++ bs) →
    Along step P s as ∧ Along step P (as.foldl step s) bs
  | [], _, _, h => ⟨trivial, h⟩
  | a :: as, bs, s, h => by
    obtain ⟨h1, h2⟩ := along_append as bs (step s a) h.2
    exact ⟨⟨h.1, h1⟩, h2⟩

theorem along_mono (h : ∀ s a, P s a → Q s a) : ∀ (as : List α) (s : σ), Along step P s as → Along step Q s as
  | [], _, _ => trivial
  | a :: as, s, hs => ⟨h s a hs.1, along_mono h as (step s a) hs.2⟩

theorem along_and : ∀ (as : List α) (s : σ),
    Along step (fun s a => P s a ∧ Q s a) s as ↔ Along step P s as ∧ Along step Q s as
  | [], _ => by simp [Along]
  | a :: as, s => by
    unfold Along
    rw [along_and as (step s a)]
    exact and_and_and_comm

theorem along_congr (hiff : ∀ s a, Inv s → (P s a ↔ Q s a)) (hstep : ∀ s a, Inv s → P s a → Inv (step s a)) :
    ∀ (as : List α) (s : σ), Inv s → (Along step P s as ↔ Along step Q s as)
  | [], _, _ => Iff.rfl
  | a :: as, s, hs => by
    unfold Along
    rw [hiff s a hs]
    refine and_congr_right fun hq => ?_
    exact along_congr hiff hstep as (step s a) (hstep s a hs ((hiff s a hs).mpr hq))

end Mantle.Run

namespace Mantle

open Run

/-- How an operation reads its copy of the shared value, and what it writes from the copy; either may refuse. -/
structure CopyRules (σ γ ω : Type) where
  read : ω → σ → Option γ
  write : ω → γ → σ → Option σ

structure CopyWrite (γ ω : Type) where
  op : ω
  copy : γ

/-- An operation between its read and its write; `since` are the writes made in between. -/
structure CopyHeld (γ ω : Type) extends CopyWrite γ ω where
  since : List (CopyWrite γ ω)

/-- What the others hold after a write. -/
def CopyHeld.passed {γ ω : Type} (h : CopyHeld γ ω) (w : CopyWrite γ ω) : CopyHeld γ ω :=
  { h with since := w :: h.since }

/-- The shared value, the calls that hold a copy of it, and the writes made so far, last first. -/
structure Copies (σ γ ω : Type) where
  shared : σ
  held : ℕ → Option (CopyHeld γ ω)
  written : List (CopyWrite γ ω)

inductive CopyEvent (ω : Type)
  | read (i : ℕ) (op : ω)
  | write (i : ℕ)

namespace Copies

variable {σ γ ω : Type} (R : CopyRules σ γ ω)

def start (shared : σ) : Copies σ γ ω := ⟨shared, fun _ => none, []⟩

/-- The call gives its copy up. -/
def dropped (s : Copies σ γ ω) (i : ℕ) : Copies σ γ ω := { s with held := Function.update s.held i none }

def step (s : Copies σ γ ω) : CopyEvent ω → Copies σ γ ω
  | .read i op =>
    match s.held i with
    | some _ => s
    | none =>
      match R.read op s.shared with
      | none => s
      | some c => { s with held := Function.update s.held i (some ⟨⟨op, c⟩, []⟩) }
  | .write i =>
    match s.held i with
    | none => s
    | some h =>
      match R.write h.op h.copy s.shared with
      | none => s.dropped i
      | some v =>
        { shared := v
          held := Function.update (fun j => (s.held j).map (·.passed h.toCopyWrite)) i none
          written := h.toCopyWrite :: s.written }

def run (s : Copies σ γ ω) (events : List (CopyEvent ω)) : Copies σ γ ω := events.foldl (step R) s

variable {R}

/-- What every copy says of the shared value and of what has been written. -/
def Holds (K : σ → List (CopyWrite γ ω) → CopyHeld γ ω → Prop) (s : Copies σ γ ω) : Prop :=
  ∀ i h, s.held i = some h → K s.shared s.written h

def Writes (R : CopyRules σ γ ω) (s : Copies σ γ ω) (e : CopyEvent ω) (h : CopyHeld γ ω) (v : σ) : Prop :=
  ∃ i, e = .write i ∧ s.held i = some h ∧ R.write h.op h.copy s.shared = some v

theorem step_shared_of_writes {s : Copies σ γ ω} {e : CopyEvent ω} {h : CopyHeld γ ω} {v : σ}
    (hw : Writes R s e h v) : (s.step R e).shared = v ∧ (s.step R e).written = h.toCopyWrite :: s.written := by
  obtain ⟨i, rfl, hi, hv⟩ := hw
  simp only [step, hi, hv, and_self]

theorem step_cases (R : CopyRules σ γ ω) (s : Copies σ γ ω) (e : CopyEvent ω) :
    (∃ h v, Writes R s e h v) ∨
      ((s.step R e).shared = s.shared ∧ (s.step R e).written = s.written ∧ ∀ h v, ¬Writes R s e h v) := by
  cases e with
  | read i op =>
    have hsame : (s.step R (.read i op)).shared = s.shared ∧ (s.step R (.read i op)).written = s.written := by
      cases hi : s.held i with
      | some h => simp [step, hi]
      | none => cases hr : R.read op s.shared <;> simp [step, hi, hr]
    refine .inr ⟨hsame.1, hsame.2, ?_⟩
    rintro h v ⟨j, he, -⟩
    cases he
  | write i =>
    cases hi : s.held i with
    | none =>
      refine .inr ⟨by simp [step, hi], by simp [step, hi], ?_⟩
      rintro h v ⟨j, he, hj, -⟩
      cases he
      rw [hi] at hj
      cases hj
    | some h =>
      cases hv : R.write h.op h.copy s.shared with
      | some v => exact .inl ⟨h, v, i, rfl, hi, hv⟩
      | none =>
        refine .inr ⟨by simp [step, hi, hv, dropped], by simp [step, hi, hv, dropped], ?_⟩
        rintro h' v ⟨j, he, hj, hw⟩
        cases he
        rw [hi] at hj
        cases hj
        rw [hv] at hw
        cases hw

theorem held_step {s : Copies σ γ ω} {e : CopyEvent ω} {j : ℕ} {h' : CopyHeld γ ω}
    (hj : (s.step R e).held j = some h') :
    (∃ op c, e = .read j op ∧ R.read op s.shared = some c ∧ h' = ⟨⟨op, c⟩, []⟩) ∨
      (s.held j = some h' ∧ ∀ h v, ¬Writes R s e h v) ∨
      ∃ h v h₀, Writes R s e h v ∧ s.held j = some h₀ ∧ h' = h₀.passed h.toCopyWrite := by
  cases e with
  | read i op =>
    have hno : ∀ h v, ¬Writes R s (.read i op) h v := by
      rintro h v ⟨_, he, -⟩
      cases he
    unfold step at hj
    cases hi : s.held i with
    | some h =>
      simp only [hi] at hj
      exact .inr (.inl ⟨hj, hno⟩)
    | none =>
      cases hr : R.read op s.shared with
      | none =>
        simp only [hi, hr] at hj
        exact .inr (.inl ⟨hj, hno⟩)
      | some c =>
        simp only [hi, hr] at hj
        by_cases hji : j = i
        · subst hji
          rw [Function.update_self] at hj
          exact .inl ⟨op, c, rfl, hr, (Option.some.inj hj).symm⟩
        · rw [Function.update_of_ne hji] at hj
          exact .inr (.inl ⟨hj, hno⟩)
  | write i =>
    unfold step at hj
    cases hi : s.held i with
    | none =>
      simp only [hi] at hj
      refine .inr (.inl ⟨hj, ?_⟩)
      rintro h v ⟨_, he, hk, -⟩
      cases he
      rw [hi] at hk
      cases hk
    | some h =>
      cases hv : R.write h.op h.copy s.shared with
      | none =>
        simp only [hi, hv, dropped] at hj
        have hji : j ≠ i := by
          rintro rfl
          rw [Function.update_self] at hj
          cases hj
        rw [Function.update_of_ne hji] at hj
        refine .inr (.inl ⟨hj, ?_⟩)
        rintro h₁ v ⟨_, he, hk, hw⟩
        cases he
        rw [hi] at hk
        cases hk
        rw [hv] at hw
        cases hw
      | some v =>
        simp only [hi, hv] at hj
        have hji : j ≠ i := by
          rintro rfl
          rw [Function.update_self] at hj
          cases hj
        rw [Function.update_of_ne hji, Option.map_eq_some_iff] at hj
        obtain ⟨h₀, hh₀, rfl⟩ := hj
        exact .inr (.inr ⟨h, v, h₀, ⟨i, rfl, hi, hv⟩, hh₀, rfl⟩)

/-- **The rule for copies.** -/
theorem Holds.step {K : σ → List (CopyWrite γ ω) → CopyHeld γ ω → Prop} {s : Copies σ γ ω} {e : CopyEvent ω} (hs : Holds K s)
    (hread : ∀ op c, R.read op s.shared = some c → K s.shared s.written ⟨⟨op, c⟩, []⟩)
    (hwrite : ∀ h v h₀, Writes R s e h v → K s.shared s.written h → K s.shared s.written h₀ →
      K v (h.toCopyWrite :: s.written) (h₀.passed h.toCopyWrite)) : Holds K (s.step R e) := by
  intro j h' hj
  rcases held_step hj with ⟨op, c, rfl, hr, rfl⟩ | ⟨hj', hno⟩ | ⟨h, v, h₀, hw, hj', rfl⟩
  · have hno : ∀ h v, ¬Writes R s (.read j op) h v := by
      rintro h v ⟨_, he, -⟩
      cases he
    rcases step_cases R s (.read j op) with ⟨h, v, hw⟩ | ⟨hs', hw', -⟩
    · exact absurd hw (hno h v)
    · rw [hs', hw']
      exact hread op c hr
  · rcases step_cases R s e with ⟨h, v, hw⟩ | ⟨hs', hw', -⟩
    · exact absurd hw (hno h v)
    · rw [hs', hw']
      exact hs j h' hj'
  · obtain ⟨hs', hw'⟩ := step_shared_of_writes hw
    obtain ⟨i, -, hi, -⟩ := id hw
    rw [hs', hw']
    exact hwrite h v h₀ hw (hs i h hi) (hs j h₀ hj')

theorem holds_start {K : σ → List (CopyWrite γ ω) → CopyHeld γ ω → Prop} (v : σ) : Holds K (start v : Copies σ γ ω) :=
  fun _ _ h => nomatch h

end Copies

end Mantle
