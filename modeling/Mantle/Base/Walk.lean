import Mathlib.Logic.Relation
import Mathlib.Data.List.Basic
import Mathlib.Data.List.Nodup

/-!
# Mantle.Base.Walk — walks over a graph that may refuse to be read

`climb` follows one parent at a time, up to a ceiling, and is read lazily; `flood` is breadth-first search by
layers.  Reading a node may raise, and then so does the walk that needs it.
-/

namespace Mantle.Walk

variable {ε α β : Type}

theorem exists_first {P : α → Prop} :
    ∀ {xs : List α}, (∃ x ∈ xs, P x) →
      ∃ pre x post, xs = pre ++ x :: post ∧ P x ∧ ∀ y ∈ pre, ¬P y
  | [], h => by simp at h
  | z :: zs, h => by
    by_cases hz : P z
    · exact ⟨[], z, zs, rfl, hz, by simp⟩
    · have h' : ∃ x ∈ zs, P x := by
        obtain ⟨x, hx, hpx⟩ := h
        rcases List.mem_cons.mp hx with rfl | hx
        · exact absurd hpx hz
        · exact ⟨x, hx, hpx⟩
      obtain ⟨pre, x, post, rfl, hx, hpre⟩ := exists_first h'
      refine ⟨z :: pre, x, post, rfl, hx, ?_⟩
      intro y hy
      rcases List.mem_cons.mp hy with rfl | hy
      · exact hz
      · exact hpre y hy

/-! ### Lazily read sequences -/

/-- What a generator yields, and the exception it ends with, if any. -/
structure Trail (ε α : Type) where
  items : List α
  ending : Option ε

namespace Trail

/-- Yield one more item first. -/
def cons (x : α) (t : Trail ε α) : Trail ε α := ⟨x :: t.items, t.ending⟩

/-- Visit the items in order until one decides; past the last item the ending is met. -/
def findIn (ending : Option ε) (visit : α → Except ε (Option β)) : List α → Except ε (Option β)
  | [] =>
    match ending with
    | none => .ok none
    | some e => .error e
  | x :: xs =>
    match visit x with
    | .error e => .error e
    | .ok (some b) => .ok (some b)
    | .ok none => findIn ending visit xs

def find (visit : α → Except ε (Option β)) (t : Trail ε α) : Except ε (Option β) :=
  findIn t.ending visit t.items

theorem findIn_some_iff {ending : Option ε} {visit : α → Except ε (Option β)} {b : β} :
    ∀ {xs : List α}, findIn ending visit xs = .ok (some b) ↔
      ∃ pre x post, xs = pre ++ x :: post ∧ visit x = .ok (some b) ∧
        ∀ y ∈ pre, visit y = .ok none
  | [] => by
    constructor
    · intro h
      unfold findIn at h
      split at h <;> cases h
    · rintro ⟨pre, x, post, h, -⟩
      simp at h
  | z :: zs => by
    have hnone : visit z = .ok none →
        (findIn ending visit (z :: zs) = .ok (some b) ↔ findIn ending visit zs = .ok (some b)) := by
      intro hz
      rw [findIn, hz]
    constructor
    · intro h
      cases hz : visit z with
      | error e =>
        rw [findIn, hz] at h
        cases h
      | ok o =>
        cases o with
        | some c =>
          rw [findIn, hz] at h
          exact ⟨[], z, zs, rfl, hz.trans h, by simp⟩
        | none =>
          obtain ⟨pre, x, post, rfl, hx, hpre⟩ := findIn_some_iff.mp ((hnone hz).mp h)
          refine ⟨z :: pre, x, post, rfl, hx, ?_⟩
          intro y hy
          rcases List.mem_cons.mp hy with rfl | hy
          · exact hz
          · exact hpre y hy
    · rintro ⟨pre, x, post, h, hx, hpre⟩
      cases pre with
      | nil =>
        rw [List.nil_append] at h
        cases h
        rw [findIn, hx]
      | cons y pre =>
        rw [List.cons_append] at h
        cases h
        exact (hnone (hpre z (by simp))).mpr
          (findIn_some_iff.mpr ⟨pre, x, post, rfl, hx, fun w hw => hpre w (by simp [hw])⟩)

theorem find_some_iff {visit : α → Except ε (Option β)} {b : β} {t : Trail ε α} :
    t.find visit = .ok (some b) ↔ ∃ pre x post, t.items = pre ++ x :: post ∧
      visit x = .ok (some b) ∧ ∀ y ∈ pre, visit y = .ok none := findIn_some_iff

theorem find_none_iff {visit : α → Except ε (Option β)} {t : Trail ε α} :
    t.find visit = .ok none ↔ t.ending = none ∧ ∀ x ∈ t.items, visit x = .ok none := by
  unfold find
  obtain ⟨items, ending⟩ := t
  induction items with
  | nil => cases ending <;> simp [findIn]
  | cons z zs ih =>
    rw [findIn]
    cases hz : visit z with
    | error e => simp [hz]
    | ok o =>
      cases o with
      | some c => simp [hz]
      | none => simpa [hz] using ih

theorem find_pure_some_iff {f : α → Option β} {b : β} {t : Trail ε α} :
    t.find (fun x => .ok (f x)) = .ok (some b) ↔ t.items.findSome? f = some b := by
  rw [find_some_iff, List.findSome?_eq_some_iff]
  constructor
  · rintro ⟨pre, x, post, h, hx, hpre⟩
    exact ⟨pre, x, post, h, Except.ok.inj hx, fun y hy => Except.ok.inj (hpre y hy)⟩
  · rintro ⟨pre, x, post, h, hx, hpre⟩
    exact ⟨pre, x, post, h, congrArg _ hx, fun y hy => congrArg _ (hpre y hy)⟩

end Trail

variable [DecidableEq α]

/-- Follow parents from a node, never back to a node seen before; `limit` when the ceiling is hit. -/
def climb (parent : α → Except ε (Option α)) (limit : ε) : ℕ → List α → α → Trail ε α
  | 0, _, _ => ⟨[], some limit⟩
  | fuel + 1, seen, cur =>
    match parent cur with
    | .error e => ⟨[], some e⟩
    | .ok none => ⟨[], none⟩
    | .ok (some p) =>
      if p ∈ seen then ⟨[], none⟩ else (climb parent limit fuel (p :: seen) p).cons p

/-- The same sequence, or a part of it that ends in an exception. -/
def Trail.Cut (t' t : Trail ε α) : Prop := t' = t ∨ t'.items <+: t.items ∧ t'.ending.isSome = true

omit [DecidableEq α] in
theorem Trail.Cut.cons {t' t : Trail ε α} (h : t'.Cut t) (x : α) : (t'.cons x).Cut (t.cons x) := by
  rcases h with rfl | ⟨hi, he⟩
  · exact .inl rfl
  · exact .inr ⟨List.cons_prefix_cons.mpr ⟨rfl, hi⟩, he⟩

theorem climb_cut_on {parent parent' : α → Except ε (Option α)} {limit : ε} :
    ∀ (fuel : ℕ) (seen : List α) (cur : α),
      (∀ y ∈ cur :: (climb parent limit fuel seen cur).items, parent' y = parent y ∨ ∃ e, parent' y = .error e) →
      (climb parent' limit fuel seen cur).Cut (climb parent limit fuel seen cur)
  | 0, _, _, _ => .inl rfl
  | fuel + 1, seen, cur, hsame => by
    rcases hsame cur List.mem_cons_self with h | ⟨e, h⟩
    · unfold climb at hsame ⊢
      rw [h]
      cases hp : parent cur with
      | error e => exact .inl rfl
      | ok o =>
        cases o with
        | none => exact .inl rfl
        | some p =>
          rw [hp] at hsame
          dsimp only at hsame ⊢
          split_ifs at hsame ⊢
          · exact .inl rfl
          · exact (climb_cut_on fuel (p :: seen) p fun y hy => hsame y (List.mem_cons_of_mem _ hy)).cons p
    · refine .inr ?_
      rw [climb, h]
      exact ⟨List.nil_prefix, rfl⟩

theorem climb_items {parent : α → Except ε (Option α)} {limit : ε} {P : α → Prop}
    (hclosed : ∀ x y, P x → parent x = .ok (some y) → P y) :
    ∀ (fuel : ℕ) (seen : List α) (cur : α), P cur → ∀ y ∈ (climb parent limit fuel seen cur).items, P y
  | 0, _, _, _, _, hy => nomatch hy
  | fuel + 1, seen, cur, hcur, y, hy => by
    unfold climb at hy
    cases hp : parent cur with
    | error e =>
      rw [hp] at hy
      cases hy
    | ok o =>
      rw [hp] at hy
      cases o with
      | none => cases hy
      | some p =>
        dsimp only at hy
        split_ifs at hy
        · cases hy
        · have hP := hclosed cur p hcur hp
          rcases List.mem_cons.mp hy with rfl | hy
          · exact hP
          · exact climb_items hclosed fuel (p :: seen) p hP y hy

theorem climb_cut {parent parent' : α → Except ε (Option α)} {limit : ε} {P : α → Prop}
    (hsame : ∀ x, P x → parent' x = parent x ∨ ∃ e, parent' x = .error e)
    (hclosed : ∀ x y, P x → parent x = .ok (some y) → P y) (fuel : ℕ) (seen : List α) (cur : α) (hcur : P cur) :
    (climb parent' limit fuel seen cur).Cut (climb parent limit fuel seen cur) := by
  refine climb_cut_on fuel seen cur fun y hy => hsame y ?_
  rcases List.mem_cons.mp hy with rfl | hy
  · exact hcur
  · exact climb_items hclosed fuel seen cur hcur y hy

theorem climb_fresh {parent : α → Except ε (Option α)} {limit : ε} :
    ∀ (fuel : ℕ) (seen : List α) (cur : α), (climb parent limit fuel seen cur).items.length ≤ fuel ∧
      ∀ y ∈ (climb parent limit fuel seen cur).items, y ∉ seen
  | 0, _, _ => ⟨Nat.le_refl 0, fun y hy => nomatch hy⟩
  | fuel + 1, seen, cur => by
    unfold climb
    cases hp : parent cur with
    | error e => exact ⟨Nat.zero_le _, fun y hy => nomatch hy⟩
    | ok o =>
      cases o with
      | none => exact ⟨Nat.zero_le _, fun y hy => nomatch hy⟩
      | some p =>
        dsimp only
        split_ifs with hseen
        · exact ⟨Nat.zero_le _, fun y hy => nomatch hy⟩
        · obtain ⟨hlen, hfresh⟩ := climb_fresh fuel (p :: seen) p
          refine ⟨Nat.succ_le_succ hlen, ?_⟩
          intro y hy
          rcases List.mem_cons.mp hy with rfl | hy
          · exact hseen
          · exact fun h => hfresh y hy (List.mem_cons_of_mem p h)

theorem climb_prefix {parent : α → Except ε (Option α)} {limit : ε} :
    ∀ {fuel fuel' : ℕ} {seen seen' : List α} (cur : α), fuel ≤ fuel' → (∀ y ∈ seen', y ∈ seen) →
      (climb parent limit fuel seen cur).items <+: (climb parent limit fuel' seen' cur).items
  | 0, _, _, _, _, _, _ => List.nil_prefix
  | fuel + 1, 0, _, _, _, hf, _ => absurd hf (by omega)
  | fuel + 1, fuel' + 1, seen, seen', cur, hf, hs => by
    unfold climb
    cases hp : parent cur with
    | error e => exact List.nil_prefix
    | ok o =>
      cases o with
      | none => exact List.nil_prefix
      | some p =>
        dsimp only
        by_cases hseen : p ∈ seen
        · rw [if_pos hseen]
          exact List.nil_prefix
        · rw [if_neg hseen, if_neg fun h => hseen (hs p h)]
          refine List.cons_prefix_cons.mpr ⟨rfl, climb_prefix p (Nat.le_of_succ_le_succ hf) ?_⟩
          intro y hy
          rcases List.mem_cons.mp hy with rfl | hy
          · exact List.mem_cons_self
          · exact List.mem_cons_of_mem p (hs y hy)

theorem prefix_climb {parent : α → Except ε (Option α)} {limit : ε} :
    ∀ {xs : List α} {fuel fuel' : ℕ} {seen seen' : List α} {cur : α},
      xs <+: (climb parent limit fuel' seen' cur).items → xs.length ≤ fuel → (∀ x ∈ xs, x ∉ seen) →
      xs <+: (climb parent limit fuel seen cur).items
  | [], _, _, _, _, _, _, _, _ => List.nil_prefix
  | x :: xs, 0, _, _, _, _, _, hl, _ => absurd hl (by simp)
  | x :: xs, fuel + 1, 0, _, _, _, h, _, _ => absurd (List.prefix_nil.mp h) (by simp)
  | x :: xs, fuel + 1, fuel' + 1, seen, seen', cur, h, hl, hs => by
    unfold climb at h ⊢
    cases hp : parent cur with
    | error e =>
      rw [hp] at h
      exact absurd (List.prefix_nil.mp h) (by simp)
    | ok o =>
      rw [hp] at h
      cases o with
      | none => exact absurd (List.prefix_nil.mp h) (by simp)
      | some p =>
        dsimp only at h ⊢
        split_ifs at h
        · exact absurd (List.prefix_nil.mp h) (by simp)
        · obtain ⟨rfl, hrest⟩ := List.cons_prefix_cons.mp h
          rw [if_neg (hs x List.mem_cons_self)]
          refine List.cons_prefix_cons.mpr ⟨rfl, prefix_climb hrest (Nat.le_of_succ_le_succ hl) ?_⟩
          -- the longer climb has been at `x` itself, and does not come back to it
          intro y hy hmem
          have hfresh := (climb_fresh fuel' (x :: seen') x).2 y (hrest.subset hy)
          rcases List.mem_cons.mp hmem with rfl | hmem
          · exact hfresh List.mem_cons_self
          · exact hs y (List.mem_cons_of_mem x hy) hmem

theorem climb_split {parent : α → Except ε (Option α)} {limit : ε} {p : α} {rest : List α} :
    ∀ {xs : List α} {fuel : ℕ} {seen : List α} {cur : α},
      (climb parent limit fuel seen cur).items = xs ++ p :: rest →
      rest = (climb parent limit (fuel - (xs.length + 1)) (p :: (xs.reverse ++ seen)) p).items
  | xs, 0, _, _, h => absurd h (by simp [climb])
  | xs, fuel + 1, seen, cur, h => by
    unfold climb at h
    cases hp : parent cur with
    | error e =>
      rw [hp] at h
      exact absurd h (by simp)
    | ok o =>
      rw [hp] at h
      cases o with
      | none => exact absurd h (by simp)
      | some q =>
        dsimp only at h
        split_ifs at h
        · exact absurd h (by simp)
        · cases xs with
          | nil =>
            obtain ⟨rfl, hrest⟩ := List.cons.inj h
            exact hrest.symm
          | cons x xs =>
            obtain ⟨rfl, hrest⟩ := List.cons.inj h
            have hsplit := climb_split hrest
            rw [hsplit]
            simp

theorem climb_parent {parent : α → Except ε (Option α)} {limit : ε} :
    ∀ (fuel : ℕ) (seen : List α) (cur : α), ∀ y ∈ (climb parent limit fuel seen cur).items,
      ∃ x, parent x = .ok (some y)
  | 0, _, _, _, hy => nomatch hy
  | fuel + 1, seen, cur, y, hy => by
    unfold climb at hy
    cases hp : parent cur with
    | error e =>
      rw [hp] at hy
      cases hy
    | ok o =>
      rw [hp] at hy
      cases o with
      | none => cases hy
      | some p =>
        dsimp only at hy
        split_ifs at hy
        · cases hy
        · rcases List.mem_cons.mp hy with rfl | hy
          · exact ⟨cur, hp⟩
          · exact climb_parent fuel (p :: seen) p y hy

theorem climb_closed {parent : α → Except ε (Option α)} {limit : ε} :
    ∀ (fuel : ℕ) (seen : List α) (cur : α), (climb parent limit fuel seen cur).ending = none → cur ∈ seen →
      ∀ w ∈ cur :: (climb parent limit fuel seen cur).items, ∃ o, parent w = .ok o ∧
        ∀ z, o = some z → z ∈ seen ∨ z ∈ (climb parent limit fuel seen cur).items
  | 0, _, _, hend, _, _, _ => nomatch hend
  | fuel + 1, seen, cur, hend, hcur, w, hw => by
    unfold climb at hend hw ⊢
    cases hp : parent cur with
    | error e =>
      rw [hp] at hend
      cases hend
    | ok o =>
      rw [hp] at hend hw
      cases o with
      | none =>
        obtain rfl : w = cur := by simpa using hw
        exact ⟨none, hp, fun z hz => nomatch hz⟩
      | some p =>
        dsimp only at hend hw ⊢
        by_cases hseen : p ∈ seen
        · rw [if_pos hseen] at hw ⊢
          obtain rfl : w = cur := by simpa using hw
          refine ⟨some p, hp, ?_⟩
          rintro z ⟨⟩
          exact .inl hseen
        · rw [if_neg hseen] at hend hw ⊢
          rcases List.mem_cons.mp hw with rfl | hw
          · refine ⟨some p, hp, ?_⟩
            rintro z ⟨⟩
            exact .inr List.mem_cons_self
          · obtain ⟨o, ho, hz⟩ := climb_closed fuel (p :: seen) p hend List.mem_cons_self w hw
            refine ⟨o, ho, ?_⟩
            intro z hoz
            rcases hz z hoz with hz | hz
            · rcases List.mem_cons.mp hz with rfl | hz
              · exact .inr List.mem_cons_self
              · exact .inl hz
            · exact .inr (List.mem_cons_of_mem p hz)

/-! ### Breadth-first search -/

/-- Admit the nodes not seen before; they join the next layer. -/
def enter (acc : List α × List α) (c : α) : List α × List α :=
  if c ∈ acc.1 then acc else (c :: acc.1, acc.2 ++ [c])

/-- Read a layer, node by node. -/
def expand (children : α → Except ε (List α)) :
    List α → List α × List α → Except ε (List α × List α)
  | [], acc => .ok acc
  | u :: us, acc =>
    match children u with
    | .error e => .error e
    | .ok cs => expand children us (cs.foldl enter acc)

/-- The nodes found beyond `seen`, layer by layer from `frontier`. -/
def flood (children : α → Except ε (List α)) : ℕ → List α → List α → Except ε (List α)
  | 0, _, _ => .ok []
  | fuel + 1, seen, frontier =>
    match expand children frontier (seen, []) with
    | .error e => .error e
    | .ok (seen', next) =>
      if next.isEmpty then .ok []
      else (flood children fuel seen' next).map (next ++ ·)

/-- One readable step. -/
def Child (children : α → Except ε (List α)) (u v : α) : Prop :=
  ∃ cs, children u = .ok cs ∧ v ∈ cs

theorem foldl_enter : ∀ (cs : List α) (acc : List α × List α) (x : α),
    (x ∈ (cs.foldl enter acc).1 ↔ x ∈ acc.1 ∨ x ∈ cs) ∧
      (x ∈ (cs.foldl enter acc).2 ↔ x ∈ acc.2 ∨ x ∉ acc.1 ∧ x ∈ cs)
  | [], acc, x => by simp
  | c :: cs, acc, x => by
    rw [List.foldl_cons]
    obtain ⟨h1, h2⟩ := foldl_enter cs (enter acc c) x
    rw [h1, h2]
    unfold enter
    by_cases hc : c ∈ acc.1
    · rw [if_pos hc]
      constructor
      · grind
      · grind
    · rw [if_neg hc]
      constructor
      · grind
      · grind

theorem expand_ok {children : α → Except ε (List α)} :
    ∀ {us : List α} {acc out : List α × List α}, expand children us acc = .ok out →
      (∀ u ∈ us, ∃ cs, children u = .ok cs) ∧
      ∀ x, (x ∈ out.1 ↔ x ∈ acc.1 ∨ ∃ u ∈ us, Child children u x) ∧
        (x ∈ out.2 ↔ x ∈ acc.2 ∨ x ∉ acc.1 ∧ ∃ u ∈ us, Child children u x)
  | [], acc, out, h => by
    cases h
    simp
  | u :: us, acc, out, h => by
    rw [expand] at h
    cases hu : children u with
    | error e =>
      rw [hu] at h
      cases h
    | ok cs =>
      rw [hu] at h
      obtain ⟨hread, hmem⟩ := expand_ok h
      have hchild : ∀ x, Child children u x ↔ x ∈ cs := by
        intro x
        constructor
        · rintro ⟨cs', hcs, hx⟩
          rw [hu] at hcs
          cases hcs
          exact hx
        · exact fun hx => ⟨cs, hu, hx⟩
      refine ⟨?_, ?_⟩
      · intro v hv
        rcases List.mem_cons.mp hv with rfl | hv
        · exact ⟨cs, hu⟩
        · exact hread v hv
      · intro x
        obtain ⟨h1, h2⟩ := hmem x
        obtain ⟨f1, f2⟩ := foldl_enter cs acc x
        rw [h1, h2, f1, f2]
        simp only [List.exists_mem_cons_iff, hchild]
        constructor
        · rw [or_assoc]
        · by_cases hx : x ∈ acc.1
          · simp [hx]
          · by_cases hc : x ∈ cs
            · simp [hx, hc]
            · simp [hx, hc]

/-- What a search over finitely many nodes returns: new nodes, each reachable from the frontier, and all of them.  The
measure is the number of nodes not seen yet. -/
theorem flood_ok {children : α → Except ε (List α)} {nodes : List α}
    (hnodes : ∀ u v, Child children u v → v ∈ nodes) :
    ∀ {fuel : ℕ} {seen frontier out : List α}, flood children fuel seen frontier = .ok out →
      (nodes.filter fun x => x ∉ seen).length < fuel → (∀ u ∈ frontier, u ∈ seen) →
      (∀ u ∈ seen, u ∉ frontier → ∀ v, Child children u v → v ∈ seen) →
      (∀ u, u ∈ seen ∨ u ∈ out → ∀ v, Child children u v → v ∈ seen ∨ v ∈ out) ∧
      (∀ u, u ∈ frontier ∨ u ∈ out → ∃ cs, children u = .ok cs) ∧
      ∀ x ∈ out, x ∉ seen ∧ ∃ u ∈ frontier, Relation.ReflTransGen (Child children) u x
  | 0, _, _, _, _, hfuel, _, _ => absurd hfuel (Nat.not_lt_zero _)
  | fuel + 1, seen, frontier, out, h, hfuel, hfront, hclosed => by
    rw [flood] at h
    cases he : expand children frontier (seen, []) with
    | error e =>
      rw [he] at h
      cases h
    | ok acc =>
      obtain ⟨seen', next⟩ := acc
      rw [he] at h
      obtain ⟨hread, hmem⟩ := expand_ok he
      have hseen : ∀ x, x ∈ seen' ↔ x ∈ seen ∨ ∃ u ∈ frontier, Child children u x :=
        fun x => (hmem x).1
      have hnext : ∀ x, x ∈ next ↔ x ∉ seen ∧ ∃ u ∈ frontier, Child children u x := by
        intro x
        have := (hmem x).2
        simpa using this
      -- what is seen after the layer is closed apart from the new layer
      have hclosed' : ∀ u ∈ seen', u ∉ next → ∀ v, Child children u v → v ∈ seen' := by
        intro u hu hun v huv
        rw [hseen]
        by_cases huf : u ∈ frontier
        · exact .inr ⟨u, huf, huv⟩
        · have hus : u ∈ seen := by
            by_contra hus
            rcases (hseen u).mp hu with h' | h'
            · exact hus h'
            · exact hun ((hnext u).mpr ⟨hus, h'⟩)
          exact .inl (hclosed u hus huf v huv)
      dsimp only at h
      split_ifs at h with hempty
      · cases h
        rw [List.isEmpty_iff] at hempty
        subst hempty
        refine ⟨?_, fun u hu => hread u (hu.resolve_right (by simp)), by simp⟩
        intro u hu v huv
        have hu' : u ∈ seen' := (hseen u).mpr (.inl (hu.resolve_right (by simp)))
        have hv := hclosed' u hu' (by simp) v huv
        rcases (hseen v).mp hv with hv | hv
        · exact .inl hv
        · by_contra hn
          rw [not_or] at hn
          have := (hnext v).mpr ⟨hn.1, hv⟩
          simp at this
      · cases hr : flood children fuel seen' next with
        | error e =>
          rw [hr] at h
          cases h
        | ok rest =>
          rw [hr] at h
          cases h
          have hless : (nodes.filter fun x => x ∉ seen').length <
              (nodes.filter fun x => x ∉ seen).length := by
            rw [List.isEmpty_iff] at hempty
            obtain ⟨x, hx⟩ := List.exists_mem_of_ne_nil next hempty
            obtain ⟨hxs, u, hu, hux⟩ := (hnext x).mp hx
            have hx' : x ∈ seen' := (hseen x).mpr (.inr ⟨u, hu, hux⟩)
            have hsub : (nodes.filter fun x => x ∉ seen') =
                (nodes.filter fun x => x ∉ seen).filter fun x => x ∉ seen' := by
              rw [List.filter_filter]
              refine List.filter_congr ?_
              intro y _
              by_cases hy : y ∈ seen
              · simp [hy, (hseen y).mpr (.inl hy)]
              · simp [hy]
            rw [hsub, List.length_filter_lt_length_iff_exists]
            exact ⟨x, List.mem_filter.mpr ⟨hnodes u x hux, by simpa using hxs⟩, by simpa using hx'⟩
          have hnextSeen : ∀ u ∈ next, u ∈ seen' := fun u hu =>
            (hseen u).mpr (.inr ((hnext u).mp hu).2)
          obtain ⟨hc, hrd, hs⟩ := flood_ok hnodes hr (by omega) hnextSeen hclosed'
          have hboth : ∀ x, (x ∈ seen ∨ x ∈ next ++ rest) ↔ (x ∈ seen' ∨ x ∈ rest) := by
            intro x
            rw [List.mem_append, hseen, hnext]
            by_cases hx : x ∈ seen
            · simp [hx]
            · simp [hx]
          refine ⟨?_, ?_, ?_⟩
          · intro u hu v huv
            exact (hboth v).mpr (hc u ((hboth u).mp hu) v huv)
          · rintro u (hu | hu)
            · exact hread u hu
            · exact hrd u (List.mem_append.mp hu)
          · intro x hx
            rcases List.mem_append.mp hx with hx | hx
            · obtain ⟨hxs, u, hu, hux⟩ := (hnext x).mp hx
              exact ⟨hxs, u, hu, Relation.ReflTransGen.single hux⟩
            · obtain ⟨hxs, w, hw, hwx⟩ := hs x hx
              obtain ⟨-, u, hu, huw⟩ := (hnext w).mp hw
              exact ⟨fun h' => hxs ((hseen x).mpr (.inl h')), u, hu,
                Relation.ReflTransGen.head huw hwx⟩

/-- **Search finds reachability.** -/
theorem mem_flood_iff {children : α → Except ε (List α)} {nodes seeds out : List α} {fuel : ℕ}
    (hnodes : ∀ u v, Child children u v → v ∈ nodes) (hfuel : nodes.length < fuel)
    (h : flood children fuel seeds seeds = .ok out) (x : α) :
    (x ∈ seeds ∨ x ∈ out ↔ ∃ s ∈ seeds, Relation.ReflTransGen (Child children) s x) ∧
      (x ∈ seeds ∨ x ∈ out → ∃ cs, children x = .ok cs) := by
  have hlen : (nodes.filter fun x => x ∉ seeds).length < fuel :=
    Nat.lt_of_le_of_lt (List.length_filter_le _ _) hfuel
  obtain ⟨hc, hread, hs⟩ := flood_ok hnodes h hlen (fun u hu => hu) fun u hu hn => absurd hu hn
  refine ⟨?_, hread x⟩
  constructor
  · rintro (hx | hx)
    · exact ⟨x, hx, Relation.ReflTransGen.refl⟩
    · exact (hs x hx).2
  · rintro ⟨s, hsm, hsx⟩
    induction hsx with
    | refl => exact .inl hsm
    | tail _ hbc ih => exact hc _ ih _ hbc

theorem flood_readable {children : α → Except ε (List α)} {P : α → Prop}
    (hread : ∀ u, P u → ∃ cs, children u = .ok cs) (hclosed : ∀ u v, P u → Child children u v → P v) :
    ∀ (fuel : ℕ) (seen frontier : List α), (∀ u ∈ frontier, P u) →
      ∃ out, flood children fuel seen frontier = .ok out
  | 0, _, _, _ => ⟨[], rfl⟩
  | fuel + 1, seen, frontier, hfront => by
    have hexp : ∀ (us : List α) (acc : List α × List α), (∀ u ∈ us, P u) →
        ∃ out, expand children us acc = .ok out := by
      intro us
      induction us with
      | nil => exact fun acc _ => ⟨acc, rfl⟩
      | cons u us ih =>
        intro acc hus
        obtain ⟨cs, hcs⟩ := hread u (hus u (by simp))
        obtain ⟨out, hout⟩ := ih (cs.foldl enter acc) fun v hv => hus v (by simp [hv])
        exact ⟨out, by rw [expand, hcs]; exact hout⟩
    obtain ⟨⟨seen', next⟩, hout⟩ := hexp frontier (seen, []) hfront
    have hnext : ∀ u ∈ next, P u := by
      intro u hu
      obtain ⟨-, hmem⟩ := expand_ok hout
      rcases ((hmem u).2).mp hu with h | ⟨-, w, hw, hwu⟩
      · simp at h
      · exact hclosed w u (hfront w hw) hwu
    rw [flood, hout]
    by_cases hn : next.isEmpty = true
    · exact ⟨[], by simp [hn]⟩
    · obtain ⟨rest, hrest⟩ := flood_readable hread hclosed fuel seen' next hnext
      exact ⟨next ++ rest, by simp [hn, hrest, Except.map]⟩

theorem flood_total {children : α → Except ε (List α)} (h : ∀ u, ∃ cs, children u = .ok cs)
    (fuel : ℕ) (seen frontier : List α) : ∃ out, flood children fuel seen frontier = .ok out :=
  flood_readable (P := fun _ => True) (fun u _ => h u) (fun _ _ _ _ => trivial) fuel seen frontier
    fun _ _ => trivial

end Mantle.Walk
