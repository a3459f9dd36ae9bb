import Mathlib.Logic.Function.Basic
import Mathlib.Order.Lattice
import Mathlib.Tactic.Tauto

/-!
# Mantle.Base.Upsert — one entry of a list of permissions is overwritten

Entries under ordered keys, each of which allows or denies some acts.  An upsert gives new acts to the first entry of
its kind, or adds one that allows them.
-/

namespace Upsert

variable {K A : Type} [LinearOrder K]

structure Entry (A : Type) where
  /-- It is of the kind an upsert overwrites. -/
  own : Bool
  allow : Bool
  acts : A → Bool

/-- Some entry allows the act and none denies it. -/
def Allowed (L : K → Option (Entry A)) (a : A) : Prop :=
  (∃ k e, L k = some e ∧ e.allow = true ∧ e.acts a = true) ∧
    ∀ k e, L k = some e → e.allow = false → e.acts a = false

structure First (L : K → Option (Entry A)) (k : K) (e : Entry A) : Prop where
  entry : L k = some e
  own : e.own = true
  least : ∀ k' e', L k' = some e' → e'.own = true → k ≤ k'

/-- An upsert of some acts. -/
inductive Step (acts : A → Bool) (L L' : K → Option (Entry A)) : Prop
  | over {k : K} {e : Entry A} (first : First L k e)
      (at_ : L' k = some { e with acts := acts }) (others : ∀ k' ≠ k, L' k' = L k')
  | new {k : K} (none_own : ∀ k' e, L k' = some e → e.own = false) (fresh : L k = none)
      (at_ : L' k = some ⟨true, true, acts⟩) (others : ∀ k' ≠ k, L' k' = L k')

/-- An entry that an upsert leaves as it is. -/
def Other (L : K → Option (Entry A)) (k : K) (e : Entry A) : Prop := L k = some e ∧ ∀ e', ¬First L k e'

def OtherAllows (L : K → Option (Entry A)) (a : A) : Prop := ∃ k e, Other L k e ∧ e.allow = true ∧ e.acts a = true

def OtherDenies (L : K → Option (Entry A)) (a : A) : Prop := ∃ k e, Other L k e ∧ e.allow = false ∧ e.acts a = true

def FirstAllows (L : K → Option (Entry A)) : Prop := ∀ k e, First L k e → e.allow = true

variable {L L' L₁ L₂ M₁ M₂ : K → Option (Entry A)} {acts acts' : A → Bool}

theorem First.unique {k k' : K} {e e' : Entry A} (h : First L k e) (h' : First L k' e') : k = k' ∧ e = e' := by
  obtain rfl := le_antisymm (h.least k' e' h'.entry h'.own) (h'.least k e h.entry h.own)
  exact ⟨rfl, Option.some.inj (h.entry.symm.trans h'.entry)⟩

theorem allowed_split {k : K} {e : Entry A} (hat : L' k = some e)
    (hothers : ∀ k' e', Other L k' e' ↔ k' ≠ k ∧ L' k' = some e') (a : A) : Allowed L' a ↔
      (OtherAllows L a ∨ e.allow = true ∧ e.acts a = true) ∧ ¬OtherDenies L a ∧ (e.allow = false → e.acts a = false) := by
  unfold Allowed OtherAllows OtherDenies
  constructor
  · rintro ⟨⟨k', e', he', hallow, hact⟩, hnone⟩
    refine ⟨?_, ?_, hnone k e hat⟩
    · by_cases hk : k' = k
      · subst hk
        obtain rfl := Option.some.inj (hat.symm.trans he')
        exact .inr ⟨hallow, hact⟩
      · exact .inl ⟨k', e', (hothers k' e').mpr ⟨hk, he'⟩, hallow, hact⟩
    · rintro ⟨k'', e'', ho, hdeny, hact'⟩
      rw [hnone k'' e'' ((hothers k'' e'').mp ho).2 hdeny] at hact'
      cases hact'
  · rintro ⟨hallows, hdenies, hown⟩
    refine ⟨?_, fun k' e' he' hdeny => ?_⟩
    · rcases hallows with ⟨k', e', ho, hallow, hact⟩ | ⟨hallow, hact⟩
      · exact ⟨k', e', ((hothers k' e').mp ho).2, hallow, hact⟩
      · exact ⟨k, e, hat, hallow, hact⟩
    · by_cases hk : k' = k
      · subst hk
        obtain rfl := Option.some.inj (hat.symm.trans he')
        exact hown hdeny
      · by_contra hact
        exact hdenies ⟨k', e', (hothers k' e').mpr ⟨hk, he'⟩, hdeny, by simpa using hact⟩

theorem First.other_iff {k : K} {e : Entry A} (h : First L k e) (k' : K) (e' : Entry A) :
    Other L k' e' ↔ k' ≠ k ∧ L k' = some e' := by
  constructor
  · rintro ⟨he', hno⟩
    refine ⟨?_, he'⟩
    rintro rfl
    exact hno e h
  · rintro ⟨hk, he'⟩
    exact ⟨he', fun e'' h' => hk (h'.unique h).1⟩

theorem First.allows_iff {k : K} {e : Entry A} (h : First L k e) : FirstAllows L ↔ e.allow = true := by
  refine ⟨fun hf => hf k e h, fun ha k' e' h' => ?_⟩
  rw [← (h.unique h').2]
  exact ha

/-- **What an upsert leaves.** -/
theorem Step.first (h : Step acts L L') : ∃ k e, First L' k e ∧ e.acts = acts ∧ (FirstAllows L ↔ e.allow = true) ∧
    ∀ k' e', Other L k' e' ↔ k' ≠ k ∧ L' k' = some e' := by
  cases h with
  | @«over» k e first at_ others =>
    refine ⟨k, _, ⟨at_, first.own, fun k' e' he' hown => ?_⟩, rfl, first.allows_iff, fun k' e' => ?_⟩
    · by_cases hk : k' = k
      · exact hk ▸ le_refl _
      · exact first.least k' e' (others k' hk ▸ he') hown
    · rw [first.other_iff]
      exact and_congr_right fun hk => by rw [others k' hk]
  | @new k none_own fresh at_ others =>
    have hnone : ∀ k' e', ¬First L k' e' := fun k' e' h' => by
      have := none_own k' e' h'.entry
      rw [h'.own] at this
      cases this
    refine ⟨k, _, ⟨at_, rfl, fun k' e' he' hown => ?_⟩, rfl, ⟨fun _ => rfl, fun _ k' e' h' => absurd h' (hnone k' e')⟩,
      fun k' e' => ?_⟩
    · by_cases hk : k' = k
      · exact hk ▸ le_refl _
      · rw [none_own k' e' (others k' hk ▸ he')] at hown
        cases hown
    · constructor
      · rintro ⟨he', -⟩
        have hk : k' ≠ k := by
          rintro rfl
          rw [fresh] at he'
          cases he'
        exact ⟨hk, (others k' hk).trans he'⟩
      · rintro ⟨hk, he'⟩
        exact ⟨(others k' hk).symm.trans he', hnone k'⟩

theorem Step.allowed_iff (h : Step acts L L') (a : A) : Allowed L' a ↔
    (OtherAllows L a ∨ FirstAllows L ∧ acts a = true) ∧ ¬OtherDenies L a ∧ (¬FirstAllows L → acts a = false) := by
  obtain ⟨k, e, hfirst, hacts, hallow, hothers⟩ := h.first
  rw [allowed_split hfirst.entry hothers, hacts, hallow, Bool.not_eq_true]

theorem Step.others (h : Step acts L L') : (FirstAllows L' ↔ FirstAllows L) ∧
    (∀ a, OtherAllows L' a ↔ OtherAllows L a) ∧ ∀ a, OtherDenies L' a ↔ OtherDenies L a := by
  obtain ⟨k, e, hfirst, -, hallow, hothers⟩ := h.first
  have hsame : ∀ k' e', Other L' k' e' ↔ Other L k' e' := fun k' e' => by rw [hfirst.other_iff, hothers]
  refine ⟨hfirst.allows_iff.trans hallow.symm, fun a => ?_, fun a => ?_⟩
  · unfold OtherAllows
    simp only [hsame]
  · unfold OtherDenies
    simp only [hsame]

/-! ### What it costs -/

/-- The acts that are given are denied by no other entry, and what else the entry that is overwritten allows is settled
by others. -/
structure Spares (L : K → Option (Entry A)) (acts : A → Bool) : Prop where
  undenied : ∀ a, acts a = true → ¬OtherDenies L a
  allows : ∀ a, acts a = true → FirstAllows L
  covered : ∀ k e, First L k e → e.allow = true → ∀ a, e.acts a = true →
    acts a = true ∨ OtherAllows L a ∨ OtherDenies L a

/-- **An upsert costs nothing and gives what it gives** exactly where the other entries let it. -/
theorem Step.spares_iff (h : Step acts L L') :
    ((∀ a, Allowed L a → Allowed L' a) ∧ ∀ a, acts a = true → Allowed L' a) ↔ Spares L acts := by
  constructor
  · rintro ⟨hkept, hgiven⟩
    refine ⟨fun a ha => ((h.allowed_iff a).mp (hgiven a ha)).2.1, fun a ha => ?_, fun k e hf hallow a hact => ?_⟩
    · by_contra hno
      rw [((h.allowed_iff a).mp (hgiven a ha)).2.2 hno] at ha
      cases ha
    · by_cases hd : OtherDenies L a
      · exact .inr (.inr hd)
      · have hbefore : Allowed L a := by
          rw [allowed_split hf.entry hf.other_iff]
          exact ⟨.inr ⟨hallow, hact⟩, hd, fun hdeny => by rw [hallow] at hdeny; cases hdeny⟩
        rcases ((h.allowed_iff a).mp (hkept a hbefore)).1 with ho | ⟨-, ha⟩
        · exact .inr (.inl ho)
        · exact .inl ha
  · rintro ⟨hundenied, hallows, hcovered⟩
    refine ⟨fun a ha => (h.allowed_iff a).mpr ?_, fun a ha => (h.allowed_iff a).mpr ?_⟩
    · have hlast : ¬FirstAllows L → acts a = false := fun hno => by
        by_contra hact
        exact hno (hallows a (by simpa using hact))
      by_cases hf : ∃ k e, First L k e
      · obtain ⟨k, e, hf⟩ := hf
        obtain ⟨hsome, hd, -⟩ := (allowed_split hf.entry hf.other_iff a).mp ha
        refine ⟨?_, hd, hlast⟩
        rcases hsome with ho | ⟨hallow, hact⟩
        · exact .inl ho
        · rcases hcovered k e hf hallow a hact with hg | ho | hd'
          · exact .inr ⟨hf.allows_iff.mpr hallow, hg⟩
          · exact .inl ho
          · exact absurd hd' hd
      · -- nothing is overwritten: every entry is one of the others
        have hother : ∀ k e, L k = some e → Other L k e := fun k e he => ⟨he, fun e' h' => hf ⟨k, e', h'⟩⟩
        obtain ⟨⟨k, e, he, hallow, hact⟩, hnone⟩ := ha
        refine ⟨.inl ⟨k, e, hother k e he, hallow, hact⟩, ?_, hlast⟩
        rintro ⟨k', e', ho, hdeny, hact'⟩
        rw [hnone k' e' ho.1 hdeny] at hact'
        cases hact'
    · have hfa := hallows a ha
      exact ⟨.inr ⟨hfa, ha⟩, hundenied a ha, fun hno => absurd hfa hno⟩

/-- **Two upserts commute** exactly where an act that only one of them gives is denied by another entry, or is allowed
by one if and only if the overwritten entry is an allow. -/
theorem Step.commute_iff (h₁ : Step acts L L₁) (h₂ : Step acts' L₁ L₂) (h₁' : Step acts' L M₁) (h₂' : Step acts M₁ M₂) :
    (∀ a, Allowed L₂ a ↔ Allowed M₂ a) ↔
      ∀ a, acts a ≠ acts' a → OtherDenies L a ∨ (OtherAllows L a ↔ FirstAllows L) := by
  obtain ⟨hf, ha, hd⟩ := h₁.others
  obtain ⟨hf', ha', hd'⟩ := h₁'.others
  refine forall_congr' fun a => ?_
  rw [h₂.allowed_iff, h₂'.allowed_iff, hf, hf', ha, ha', hd, hd']
  cases acts a <;> cases acts' a <;> simp <;> tauto

end Upsert
