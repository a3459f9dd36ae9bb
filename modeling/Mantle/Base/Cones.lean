import Mathlib.Logic.Relation

/-!
# Mantle.Base.Cones — what lies below an allowed seed and below no denied one

A cone is what the allowed seeds reach without ever standing below a denied one.  One lies in another exactly if its
seeds do and no step of it leaves the other.
-/

open Relation

structure Cone (α : Type) where
  step : α → α → Prop
  allow : α → Prop
  deny : α → Prop

namespace Cone

variable {α : Type} (K L : Cone α)

def Below (S : α → Prop) (x : α) : Prop := ∃ s, S s ∧ ReflTransGen K.step s x

def Holds (x : α) : Prop := K.Below K.allow x ∧ ¬K.Below K.deny x

/-- The seeds of the first cone lie in the second, and a step between its members that starts in both ends in the
second. -/
structure Follows : Prop where
  seeds : ∀ s, K.allow s → ¬K.Below K.deny s → L.Holds s
  steps : ∀ u v, K.Holds u → L.Holds u → K.step u v → ¬K.Below K.deny v → L.Holds v

variable {K L}

theorem Below.seed {S : α → Prop} {s : α} (h : S s) : K.Below S s := ⟨s, h, .refl⟩

theorem Below.tail {S : α → Prop} {u v : α} (h : K.Below S u) (hstep : K.step u v) : K.Below S v := by
  obtain ⟨s, hs, hline⟩ := h
  exact ⟨s, hs, hline.tail hstep⟩

theorem below_iff {S : α → Prop} {v : α} : K.Below S v ↔ S v ∨ ∃ u, K.Below S u ∧ K.step u v := by
  constructor
  · rintro ⟨s, hs, hline⟩
    cases hline with
    | refl => exact .inl hs
    | @tail u _ hline hstep => exact .inr ⟨u, ⟨s, hs, hline⟩, hstep⟩
  · rintro (hs | ⟨u, hu, hstep⟩)
    · exact .seed hs
    · exact hu.tail hstep

/-- **A cone is spanned within itself.** -/
theorem Holds.induct {P : α → Prop} {x : α} (h : K.Holds x) (seed : ∀ s, K.allow s → ¬K.Below K.deny s → P s)
    (step : ∀ u v, K.Holds u → P u → K.step u v → ¬K.Below K.deny v → P v) : P x := by
  obtain ⟨⟨s, hs, hline⟩, hdeny⟩ := h
  induction hline with
  | refl => exact seed s hs hdeny
  | @tail u v hline hstep ih =>
    have hu : ¬K.Below K.deny u := fun hb => hdeny (hb.tail hstep)
    exact step u v ⟨⟨s, hs, hline⟩, hu⟩ (ih hu) hstep hdeny

theorem subset_iff : (∀ x, K.Holds x → L.Holds x) ↔ Follows K L := by
  constructor
  · intro h
    exact ⟨fun s hs hd => h s ⟨.seed hs, hd⟩, fun u v hu _ hstep hd => h v ⟨hu.1.tail hstep, hd⟩⟩
  · intro h x hx
    exact hx.induct h.seeds fun u v hu hlu hstep hd => h.steps u v hu hlu hstep hd

theorem eq_iff : (∀ x, K.Holds x ↔ L.Holds x) ↔ Follows K L ∧ Follows L K := by
  rw [← subset_iff, ← subset_iff]
  exact ⟨fun h => ⟨fun x => (h x).mp, fun x => (h x).mpr⟩, fun h x => ⟨h.1 x, h.2 x⟩⟩

end Cone
