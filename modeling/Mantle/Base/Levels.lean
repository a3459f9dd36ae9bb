import Mathlib.Data.List.Basic

/-!
# Mantle.Base.Levels — expanding a tree level by level, with a guard and a depth

`expand` reads children level by level, to a fixed depth, and a value goes down with them.  Where a key determines the
way down to it, the search finds exactly the ends of the paths within the depth.
-/

namespace Mantle.Levels

variable {d : ℕ}

variable {α β κ ε : Type} [DecidableEq κ] (key : α → κ) (kids : α → Except ε (List α)) (down : β → α → β)

/-- What is seen, what was found, and what is to be expanded next. -/
structure Front (α β κ : Type) where
  seen : List κ
  found : List (α × β)
  next : List (α × β)

/-- One child. -/
def Front.visit (b : β) (w : Front α β κ) (m : α) : Front α β κ :=
  if key m ∈ w.seen then w
  else ⟨key m :: w.seen, w.found ++ [(m, down b m)], w.next ++ [(m, down b m)]⟩

def level : List (α × β) → Front α β κ → Except ε (Front α β κ)
  | [], w => .ok w
  | (n, b) :: rest, w =>
    match kids n with
    | .error e => .error e
    | .ok ms => level rest (ms.foldl (Front.visit key down b) w)

def levels : ℕ → Front α β κ → Except ε (List (α × β))
  | 0, w => .ok w.found
  | depth + 1, w =>
    if w.next.isEmpty then .ok w.found
    else
      match level key kids down w.next { w with next := [] } with
      | .error e => .error e
      | .ok w' => levels depth w'

/-- The root and what is found below it, with the values that went down. -/
def expand (depth : ℕ) (root : α) (b : β) : Except ε (List (α × β)) :=
  levels key kids down depth ⟨[key root], [(root, b)], [(root, b)]⟩

/-- A way down from the root, its end first, with the value at its end. -/
inductive Path (root : α) (b₀ : β) : List α → β → Prop
  | root : Path root b₀ [root] b₀
  | kid {n m : α} {p ms : List α} {b : β} (h : Path root b₀ (n :: p) b) (hk : kids n = .ok ms) (hm : m ∈ ms) :
      Path root b₀ (m :: n :: p) (down b m)

section Spec

variable {key : α → κ} {kids : α → Except ε (List α)} {down : β → α → β} {root : α} {b₀ : β}

theorem Path.value_unique {p : List α} {b b' : β} (h : Path kids down root b₀ p b)
    (h' : Path kids down root b₀ p b') : b = b' := by
  induction h generalizing b' with
  | root =>
    cases h'
    rfl
  | kid _ _ _ ih =>
    cases h' with
    | kid h₁ _ _ => rw [ih h₁]

/-- Every key has one way down to it. -/
def Unique (key : α → κ) (kids : α → Except ε (List α)) (down : β → α → β) (root : α) (b₀ : β) : Prop :=
  ∀ m p b m' p' b', Path kids down root b₀ (m :: p) b → Path kids down root b₀ (m' :: p') b' →
    key m = key m' → m :: p = m' :: p'

/-- The search has gone `d` levels down: what it found and what it will expand are ends of paths. -/
structure Front.Within (w : Front α β κ) (kids : α → Except ε (List α)) (down : β → α → β) (key : α → κ)
    (root : α) (b₀ : β) (d : ℕ) : Prop where
  seen : ∀ k ∈ w.seen, ∃ m p b, Path kids down root b₀ (m :: p) b ∧ key m = k ∧ p.length ≤ d + 1 ∧
    (m, b) ∈ w.found ∧ (p.length = d + 1 → (m, b) ∈ w.next)
  found : ∀ m b, (m, b) ∈ w.found → ∃ p, Path kids down root b₀ (m :: p) b ∧ p.length ≤ d + 1
  next : ∀ m b, (m, b) ∈ w.next → ∃ p, Path kids down root b₀ (m :: p) b ∧ p.length = d + 1
  sub : ∀ e ∈ w.next, e ∈ w.found

theorem Front.Within.visit {w : Front α β κ} (h : w.Within kids down key root b₀ d) {n m : α} {p ms : List α}
    {b : β} (hp : Path kids down root b₀ (n :: p) b) (hd : p.length = d) (hk : kids n = .ok ms) (hm : m ∈ ms) :
    (w.visit key down b m).Within kids down key root b₀ d := by
  unfold Front.visit
  split_ifs with hs
  · exact h
  · have hpath : Path kids down root b₀ (m :: n :: p) (down b m) := .kid hp hk hm
    have hlen : (n :: p).length = d + 1 := by rw [List.length_cons, hd]
    refine ⟨?_, ?_, ?_, ?_⟩
    · intro k hkk
      rcases List.mem_cons.mp hkk with rfl | hkk
      · exact ⟨m, _, _, hpath, rfl, by omega, by simp, fun _ => by simp⟩
      · obtain ⟨m', p', b', h1, h2, h3, h4, h5⟩ := h.seen k hkk
        exact ⟨m', p', b', h1, h2, h3, by simp [h4], fun hl => by simp [h5 hl]⟩
    · intro m' b' hmb
      rcases List.mem_append.mp hmb with hmb | hmb
      · exact h.found m' b' hmb
      · rw [List.mem_singleton, Prod.mk.injEq] at hmb
        obtain ⟨rfl, rfl⟩ := hmb
        exact ⟨_, hpath, by omega⟩
    · intro m' b' hmb
      rcases List.mem_append.mp hmb with hmb | hmb
      · exact h.next m' b' hmb
      · rw [List.mem_singleton, Prod.mk.injEq] at hmb
        obtain ⟨rfl, rfl⟩ := hmb
        exact ⟨_, hpath, hlen⟩
    · intro e he
      rcases List.mem_append.mp he with he | he
      · exact List.mem_append_left _ (h.sub e he)
      · exact List.mem_append_right _ he

theorem Front.visit_grows (b : β) (w : Front α β κ) (m : α) :
    (∀ e ∈ w.found, e ∈ (w.visit key down b m).found) ∧ (∀ e ∈ w.next, e ∈ (w.visit key down b m).next) := by
  unfold Front.visit
  split_ifs
  · exact ⟨fun _ h => h, fun _ h => h⟩
  · exact ⟨fun _ h => List.mem_append_left _ h, fun _ h => List.mem_append_left _ h⟩

theorem Front.Within.visited {w : Front α β κ} (h : w.Within kids down key root b₀ d)
    (hu : Unique key kids down root b₀) {n m : α} {p ms : List α} {b : β}
    (hp : Path kids down root b₀ (n :: p) b) (hd : p.length = d) (hk : kids n = .ok ms) (hm : m ∈ ms) :
    (m, down b m) ∈ (w.visit key down b m).next := by
  have hpath : Path kids down root b₀ (m :: n :: p) (down b m) := .kid hp hk hm
  unfold Front.visit
  split_ifs with hs
  · obtain ⟨m', p', b', h1, h2, -, -, h5⟩ := h.seen _ hs
    have heq := hu _ _ _ _ _ _ h1 hpath h2
    cases heq
    rw [h1.value_unique hpath] at h5
    exact h5 (by rw [List.length_cons, hd])
  · simp

theorem Front.Within.visits (hu : Unique key kids down root b₀) {n : α} {p ms : List α} {b : β}
    (hp : Path kids down root b₀ (n :: p) b) (hd : p.length = d) (hk : kids n = .ok ms) :
    ∀ (todo : List α) (w : Front α β κ), (∀ m ∈ todo, m ∈ ms) → w.Within kids down key root b₀ d →
      (todo.foldl (Front.visit key down b) w).Within kids down key root b₀ d ∧
        (∀ e ∈ w.found, e ∈ (todo.foldl (Front.visit key down b) w).found) ∧
        (∀ e ∈ w.next, e ∈ (todo.foldl (Front.visit key down b) w).next) ∧
        ∀ m ∈ todo, (m, down b m) ∈ (todo.foldl (Front.visit key down b) w).next
  | [], w, _, h => ⟨h, fun _ he => he, fun _ he => he, fun m hm => by cases hm⟩
  | m :: todo, w, hsub, h => by
    have hm := hsub m (by simp)
    have hgrow := @Front.visit_grows _ _ _ _ key down b w m
    have hnext := h.visited hu hp hd hk hm
    obtain ⟨hw, hf, hn, hall⟩ := Front.Within.visits hu hp hd hk todo (w.visit key down b m)
      (fun x hx => hsub x (by simp [hx])) (h.visit hp hd hk hm)
    refine ⟨hw, fun e he => hf e (hgrow.1 e he), fun e he => hn e (hgrow.2 e he), ?_⟩
    intro x hx
    rcases List.mem_cons.mp hx with rfl | hx
    · exact hn _ hnext
    · exact hall x hx

theorem Front.Within.level (hu : Unique key kids down root b₀) :
    ∀ (todo : List (α × β)) (w w' : Front α β κ),
      (∀ n b, (n, b) ∈ todo → ∃ p, Path kids down root b₀ (n :: p) b ∧ p.length = d) →
      w.Within kids down key root b₀ d → level key kids down todo w = .ok w' →
      w'.Within kids down key root b₀ d ∧ (∀ e ∈ w.found, e ∈ w'.found) ∧ (∀ e ∈ w.next, e ∈ w'.next) ∧
        ∀ n b, (n, b) ∈ todo → ∃ ms, kids n = .ok ms ∧ ∀ m ∈ ms, (m, down b m) ∈ w'.next
  | [], w, w', _, h, hl => by
    cases hl
    exact ⟨h, fun _ he => he, fun _ he => he, fun n b hnb => by cases hnb⟩
  | (n, b) :: todo, w, w', htodo, h, hl => by
    unfold Levels.level at hl
    cases hk : kids n with
    | error e =>
      rw [hk] at hl
      cases hl
    | ok ms =>
      rw [hk] at hl
      obtain ⟨p, hp, hd⟩ := htodo n b (by simp)
      obtain ⟨hw, hf, hn, hall⟩ := Front.Within.visits hu hp hd hk ms w (fun _ hm => hm) h
      obtain ⟨hw', hf', hn', hall'⟩ := Front.Within.level hu todo _ w'
        (fun x c hx => htodo x c (by simp [hx])) hw hl
      refine ⟨hw', fun e he => hf' e (hf e he), fun e he => hn' e (hn e he), ?_⟩
      intro x c hxc
      rcases List.mem_cons.mp hxc with hxc | hxc
      · cases hxc
        exact ⟨ms, hk, fun m hm => hn' _ (hall m hm)⟩
      · exact hall' x c hxc

theorem level_isOk : ∀ (todo : List (α × β)) (w : Front α β κ),
    (∃ w', level key kids down todo w = .ok w') ↔ ∀ n b, (n, b) ∈ todo → ∃ ms, kids n = .ok ms
  | [], w => ⟨fun _ n b hnb => (by cases hnb), fun _ => ⟨w, rfl⟩⟩
  | (n, b) :: todo, w => by
    unfold level
    cases hk : kids n with
    | error e =>
      constructor
      · rintro ⟨w', hw'⟩
        cases hw'
      · intro h
        obtain ⟨ms, hms⟩ := h n b (by simp)
        rw [hk] at hms
        cases hms
    | ok ms =>
      dsimp only
      rw [level_isOk todo]
      constructor
      · intro h x c hxc
        rcases List.mem_cons.mp hxc with hxc | hxc
        · cases hxc
          exact ⟨ms, hk⟩
        · exact h x c hxc
      · exact fun h x c hxc => h x c (by simp [hxc])

/-- The search has gone `d` levels down. -/
structure Front.At (w : Front α β κ) (kids : α → Except ε (List α)) (down : β → α → β) (key : α → κ)
    (root : α) (b₀ : β) (d : ℕ) : Prop where
  seen : ∀ k ∈ w.seen, ∃ m p b, Path kids down root b₀ (m :: p) b ∧ key m = k ∧ p.length ≤ d ∧
    (m, b) ∈ w.found
  found : ∀ m b, (m, b) ∈ w.found ↔ ∃ p, Path kids down root b₀ (m :: p) b ∧ p.length ≤ d
  next : ∀ m b, (m, b) ∈ w.next ↔ ∃ p, Path kids down root b₀ (m :: p) b ∧ p.length = d

theorem Front.At.level {w w' : Front α β κ} (h : w.At kids down key root b₀ d)
    (hu : Unique key kids down root b₀) (hl : Levels.level key kids down w.next { w with next := [] } = .ok w') :
    w'.At kids down key root b₀ (d + 1) := by
  have hstart : ({ w with next := [] } : Front α β κ).Within kids down key root b₀ d := by
    refine ⟨?_, ?_, ?_, ?_⟩
    · intro k hk
      obtain ⟨m, p, b, h1, h2, h3, h4⟩ := h.seen k hk
      exact ⟨m, p, b, h1, h2, by omega, h4, fun hl => by omega⟩
    · intro m b hmb
      obtain ⟨p, hp, hd⟩ := (h.found m b).mp hmb
      exact ⟨p, hp, by omega⟩
    · intro m b hmb
      cases hmb
    · intro e he
      cases he
  obtain ⟨hw, hf, -, hall⟩ := Front.Within.level hu w.next _ w' (fun n b => (h.next n b).mp) hstart hl
  -- a path that is one longer ends in a child of the level
  have hlong : ∀ m p b, Path kids down root b₀ (m :: p) b → p.length = d + 1 → (m, b) ∈ w'.next := by
    intro m p b hp hd
    cases hp with
    | root => simp at hd
    | @kid n _ p ms c hn hk hm =>
      obtain ⟨ms', hk', hnext⟩ := hall n c ((h.next n c).mpr ⟨p, hn, by simpa using hd⟩)
      rw [hk] at hk'
      cases hk'
      exact hnext m hm
  refine ⟨?_, ?_, ?_⟩
  · intro k hk
    obtain ⟨m, p, b, h1, h2, h3, h4, -⟩ := hw.seen k hk
    exact ⟨m, p, b, h1, h2, h3, h4⟩
  · intro m b
    refine ⟨hw.found m b, ?_⟩
    rintro ⟨p, hp, hd⟩
    rcases Nat.lt_or_eq_of_le hd with hd | hd
    · exact hf _ ((h.found m b).mpr ⟨p, hp, by omega⟩)
    · exact hw.sub _ (hlong m p b hp hd)
  · intro m b
    refine ⟨hw.next m b, ?_⟩
    rintro ⟨p, hp, hd⟩
    exact hlong m p b hp hd

theorem Path.tail_of_longer (hnone : ∀ m p b, Path kids down root b₀ (m :: p) b → p.length ≠ d) {m : α}
    {p : List α} {b : β} (h : Path kids down root b₀ (m :: p) b) : p.length < d := by
  generalize hq : m :: p = q at h
  induction h generalizing m p with
  | root =>
    cases hq
    have := hnone _ _ _ (@Path.root α β ε kids down root b₀)
    simp only [List.length_nil, ne_eq] at this ⊢
    omega
  | kid h hk hm ih =>
    cases hq
    have h1 := ih rfl
    have h2 := hnone _ _ _ (Path.kid h hk hm)
    simp only [List.length_cons, ne_eq] at h2 ⊢
    omega

theorem mem_levels_iff (hu : Unique key kids down root b₀) : ∀ (depth d : ℕ) (w : Front α β κ)
    (out : List (α × β)), w.At kids down key root b₀ d → levels key kids down depth w = .ok out →
    ∀ m b, (m, b) ∈ out ↔ ∃ p, Path kids down root b₀ (m :: p) b ∧ p.length ≤ d + depth
  | 0, d, w, out, hw, h, m, b => by
    cases h
    exact hw.found m b
  | depth + 1, d, w, out, hw, h, m, b => by
    unfold levels at h
    split_ifs at h with he
    · cases h
      rw [hw.found m b]
      -- nothing is left to expand, so no path is longer
      have hnone : ∀ m p b, Path kids down root b₀ (m :: p) b → p.length ≠ d := by
        intro m p b hp hd
        have := (hw.next m b).mpr ⟨p, hp, hd⟩
        rw [List.isEmpty_iff.mp he] at this
        cases this
      constructor
      · rintro ⟨p, hp, hd⟩
        exact ⟨p, hp, by omega⟩
      · rintro ⟨p, hp, -⟩
        exact ⟨p, hp, Nat.le_of_lt (Path.tail_of_longer hnone hp)⟩
    · cases hl : level key kids down w.next { w with next := [] } with
      | error e =>
        rw [hl] at h
        cases h
      | ok w' =>
        rw [hl] at h
        rw [mem_levels_iff hu depth (d + 1) w' out (hw.level hu hl) h m b]
        simp only [Nat.add_assoc, Nat.add_comm 1 depth]

omit [DecidableEq κ] in
theorem at_start (key : α → κ) (kids : α → Except ε (List α)) (down : β → α → β) (root : α) (b₀ : β) :
    (⟨[key root], [(root, b₀)], [(root, b₀)]⟩ : Front α β κ).At kids down key root b₀ 0 := by
  have hroot : ∀ m b, (m, b) ∈ [(root, b₀)] ↔ ∃ p, Path kids down root b₀ (m :: p) b ∧ p.length = 0 := by
    intro m b
    rw [List.mem_singleton, Prod.mk.injEq]
    constructor
    · rintro ⟨rfl, rfl⟩
      exact ⟨[], .root, rfl⟩
    · rintro ⟨p, hp, hl⟩
      rw [List.length_eq_zero_iff] at hl
      subst hl
      cases hp
      exact ⟨rfl, rfl⟩
  refine ⟨?_, ?_, hroot⟩
  · intro k hk
    rw [List.mem_singleton] at hk
    exact ⟨root, [], b₀, .root, hk.symm, Nat.le_refl 0, by simp⟩
  · intro m b
    rw [hroot m b]
    simp only [Nat.le_zero]

theorem mem_expand_iff (hu : Unique key kids down root b₀) {depth : ℕ} {out : List (α × β)}
    (h : expand key kids down depth root b₀ = .ok out) (m : α) (b : β) :
    (m, b) ∈ out ↔ ∃ p, Path kids down root b₀ (m :: p) b ∧ p.length ≤ depth := by
  rw [mem_levels_iff hu depth 0 _ out (at_start key kids down root b₀) h m b, Nat.zero_add]

theorem levels_isOk (hu : Unique key kids down root b₀) : ∀ (depth d : ℕ) (w : Front α β κ),
    w.At kids down key root b₀ d → ((∃ out, levels key kids down depth w = .ok out) ↔
      ∀ n p b, Path kids down root b₀ (n :: p) b → d ≤ p.length → p.length < d + depth →
        ∃ ms, kids n = .ok ms)
  | 0, d, w, _ => by
    constructor
    · intro _ n p b _ h1 h2
      omega
    · exact fun _ => ⟨_, rfl⟩
  | depth + 1, d, w, hw => by
    unfold levels
    split_ifs with he
    · refine ⟨fun _ n p b hp hd _ => ?_, fun _ => ⟨_, rfl⟩⟩
      have hnone : ∀ m p b, Path kids down root b₀ (m :: p) b → p.length ≠ d := by
        intro m p b hp hd
        have := (hw.next m b).mpr ⟨p, hp, hd⟩
        rw [List.isEmpty_iff.mp he] at this
        cases this
      have := Path.tail_of_longer hnone hp
      omega
    · have hlev := @level_isOk _ _ _ _ _ key kids down w.next { w with next := [] }
      cases hl : level key kids down w.next { w with next := [] } with
      | error e =>
        rw [hl] at hlev
        constructor
        · rintro ⟨out, hout⟩
          cases hout
        · intro h
          have hall : ∀ n b, (n, b) ∈ w.next → ∃ ms, kids n = .ok ms := by
            intro n b hnb
            obtain ⟨p, hp, hd⟩ := (hw.next n b).mp hnb
            exact h n p b hp (by omega) (by omega)
          obtain ⟨w', hw'⟩ := hlev.mpr hall
          cases hw'
      | ok w' =>
        dsimp only
        rw [levels_isOk hu depth (d + 1) w' (hw.level hu hl)]
        have hthis := hlev.mp ⟨w', hl⟩
        constructor
        · intro h n p b hp h1 h2
          rcases Nat.lt_or_eq_of_le h1 with h1 | h1
          · exact h n p b hp (by omega) (by omega)
          · exact hthis n b ((hw.next n b).mpr ⟨p, hp, h1.symm⟩)
        · exact fun h n p b hp h1 h2 => h n p b hp (by omega) (by omega)

theorem expand_isOk (hu : Unique key kids down root b₀) (depth : ℕ) :
    (∃ out, expand key kids down depth root b₀ = .ok out) ↔
      ∀ n p b, Path kids down root b₀ (n :: p) b → p.length < depth → ∃ ms, kids n = .ok ms := by
  unfold expand
  rw [levels_isOk hu depth 0 _ (at_start key kids down root b₀)]
  simp only [Nat.zero_le, true_implies, Nat.zero_add]

/-! ### Two trees that agree where the search goes -/

section Congr

variable {kids' : α → Except ε (List α)} {P : α → Prop}

theorem Front.visits_next {b : β} : ∀ (ms : List α) (w : Front α β κ), (∀ m ∈ ms, P m) → (∀ e ∈ w.next, P e.1) →
    ∀ e ∈ (ms.foldl (Front.visit key down b) w).next, P e.1
  | [], _, _, hw => hw
  | m :: ms, w, hms, hw => by
    refine Front.visits_next ms (w.visit key down b m) (fun m' hm' => hms m' (by simp [hm'])) ?_
    unfold Front.visit
    split_ifs
    · exact hw
    · intro e he
      rcases List.mem_append.mp he with he | he
      · exact hw e he
      · rw [List.mem_singleton.mp he]
        exact hms m (by simp)

variable (h : ∀ n ms, P n → kids n = .ok ms → kids' n = .ok ms ∧ ∀ m ∈ ms, P m)
include h

theorem level_congr : ∀ (todo : List (α × β)) (w w' : Front α β κ), (∀ e ∈ todo, P e.1) → (∀ e ∈ w.next, P e.1) →
    level key kids down todo w = .ok w' → level key kids' down todo w = .ok w' ∧ ∀ e ∈ w'.next, P e.1
  | [], w, w', _, hw, hl => by
    cases hl
    exact ⟨rfl, hw⟩
  | (n, b) :: todo, w, w', htodo, hw, hl => by
    unfold level at hl ⊢
    cases hk : kids n with
    | error e =>
      rw [hk] at hl
      cases hl
    | ok ms =>
      rw [hk] at hl
      obtain ⟨hk', hms⟩ := h n ms (htodo (n, b) (by simp)) hk
      rw [hk']
      exact level_congr todo _ w' (fun e he => htodo e (by simp [he])) (Front.visits_next ms w hms hw) hl

theorem levels_congr : ∀ (depth : ℕ) (w : Front α β κ) (out : List (α × β)), (∀ e ∈ w.next, P e.1) →
    levels key kids down depth w = .ok out → levels key kids' down depth w = .ok out
  | 0, _, _, _, hl => hl
  | depth + 1, w, out, hw, hl => by
    unfold levels at hl ⊢
    by_cases hempty : w.next.isEmpty = true
    · rw [if_pos hempty] at hl ⊢
      exact hl
    · rw [if_neg hempty] at hl ⊢
      cases hlev : level key kids down w.next { w with next := [] } with
      | error e =>
        rw [hlev] at hl
        cases hl
      | ok w' =>
        rw [hlev] at hl
        obtain ⟨hlev', hw'⟩ := level_congr h w.next { w with next := [] } w' hw (fun e he => by cases he) hlev
        rw [hlev']
        exact levels_congr depth w' out hw' hl

theorem expand_congr (hroot : P root) {depth : ℕ} {out : List (α × β)}
    (hl : expand key kids down depth root b₀ = .ok out) : expand key kids' down depth root b₀ = .ok out := by
  refine levels_congr h depth _ out ?_ hl
  intro e he
  rw [List.mem_singleton.mp he]
  exact hroot

end Congr

end Spec

end Mantle.Levels
