import Mantle.Base.Tx

/-!
# Mantle.Base.Sim — two runs of a computation side by side

`Sim R m m' s t` says that `m` from `s` and `m'` from `t` end alike, in states related by `R`.  The rules follow the
shape of the code.
-/

namespace Mantle.Tx

variable {ε σ α β : Type}

/-- Two computations end alike from two states: both return the same, or both raise the same, in related states. -/
def Sim (R : σ → σ → Prop) (m m' : EStateM ε σ α) (s t : σ) : Prop :=
  match m s, m' t with
  | .ok a s', .ok b t' => a = b ∧ R s' t'
  | .error e s', .error f t' => e = f ∧ R s' t'
  | _, _ => False

variable {R : σ → σ → Prop} {m m' : EStateM ε σ α} {s t : σ}

theorem Sim.ok (h : Sim R m m' s t) {a : α} {s' : σ} (hm : m s = .ok a s') :
    ∃ t', m' t = .ok a t' ∧ R s' t' := by
  unfold Sim at h
  rw [hm] at h
  split at h
  · rename_i heq hok
    cases heq
    exact ⟨_, h.1 ▸ hok, h.2⟩
  · rename_i heq _
    cases heq
  · exact h.elim

theorem Sim.error (h : Sim R m m' s t) {e : ε} {s' : σ} (hm : m s = .error e s') :
    ∃ t', m' t = .error e t' ∧ R s' t' := by
  unfold Sim at h
  rw [hm] at h
  split at h
  · rename_i heq _
    cases heq
  · rename_i heq herr
    cases heq
    exact ⟨_, h.1 ▸ herr, h.2⟩
  · exact h.elim

theorem sim_pure {a : α} (h : R s t) : Sim R (pure a : EStateM ε σ α) (pure a) s t := ⟨rfl, h⟩

theorem sim_throw {e : ε} (h : R s t) : Sim R (throw e : EStateM ε σ α) (throw e) s t := ⟨rfl, h⟩

theorem sim_modify {f g : σ → σ} (h : R (f s) (g t)) :
    Sim R (modify f : EStateM ε σ PUnit) (modify g) s t := ⟨rfl, h⟩

theorem sim_bind {f f' : α → EStateM ε σ β} (h : Sim R m m' s t)
    (hf : ∀ a s' t', R s' t' → Sim R (f a) (f' a) s' t') : Sim R (m >>= f) (m' >>= f') s t := by
  cases hm : m s with
  | ok a s' =>
    obtain ⟨t', ht, hr⟩ := h.ok hm
    unfold Sim
    rw [bind_of_ok hm, bind_of_ok ht]
    exact hf a s' t' hr
  | error e s' =>
    obtain ⟨t', ht, hr⟩ := h.error hm
    unfold Sim
    rw [bind_of_error hm, bind_of_error ht]
    exact ⟨rfl, hr⟩

theorem sim_get {f f' : σ → EStateM ε σ β} (h : Sim R (f s) (f' t) s t) :
    Sim R (get >>= f) (get >>= f') s t := h

theorem sim_ite {c : Prop} [Decidable c] {m₁ m₂ m₁' m₂' : EStateM ε σ α} (h₁ : c → Sim R m₁ m₁' s t)
    (h₂ : ¬c → Sim R m₂ m₂' s t) : Sim R (if c then m₁ else m₂) (if c then m₁' else m₂') s t := by
  split_ifs with hc
  · exact h₁ hc
  · exact h₂ hc

theorem sim_ofExcept {x : Except ε α} (h : R s t) : Sim R (ofExcept x) (ofExcept x) s t := by
  cases x with
  | error e => exact sim_throw h
  | ok a => exact sim_pure h

end Mantle.Tx
