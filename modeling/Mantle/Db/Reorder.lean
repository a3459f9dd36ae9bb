import Mathlib.Data.List.Sort
import Mantle.Base.Copies

/-!
# Mantle.Db.Reorder — rewriting a child order against the version it was read at

`reorder_children` compares the caller's version with `order_fingerprint` and then writes the edges one by one, so any
number of requests run interleaved.
-/

namespace Mantle

open Run

/-! ### The child order -/

structure ChildEdge where
  root : String
  label : String
  orderKey : Option String
deriving DecidableEq, Repr

def orderAlphabet : List Char := "0123456789ABCDEFGHIJKLMNOPQRSTUVWXYZabcdefghijklmnopqrstuvwxyz".toList

/-- `after_key`: the last character one further in the alphabet, or another `U` behind it. -/
def afterKey (a : Option String) : String :=
  match a with
  | none => "U"
  | some a =>
    match a.toList.getLast? with
    | none => "U"
    | some c =>
      match orderAlphabet[orderAlphabet.idxOf c + 1]? with
      | none => a ++ "U"
      | some d => String.ofList (a.toList.dropLast ++ [d])

/-- Pairs of an order key and a root, as Python compares tuples of strings. -/
def childLe (a b : String × String) : Prop := a.1 < b.1 ∨ a.1 = b.1 ∧ a.2 ≤ b.2

instance : DecidableRel childLe := fun a b => inferInstanceAs (Decidable (a.1 < b.1 ∨ a.1 = b.1 ∧ a.2 ≤ b.2))

def orderedRoots (children : List ChildEdge) : List String :=
  ((children.map fun c => (c.orderKey.getD "", c.root)).insertionSort childLe).map Prod.snd

/-- `set_edge_order_key`: the first membership edge of the root, if it has one. -/
def setEdgeOrderKey (root key : String) : List ChildEdge → Option (List ChildEdge)
  | [] => none
  | c :: rest =>
    if c.root = root then some ({ c with orderKey := some key } :: rest)
    else (setEdgeOrderKey root key rest).map (c :: ·)

/-- `reorder_collection_artifacts` from the key `prev` on, with nothing in between. -/
def reorderFrom (prev : Option String) : List String → List ChildEdge → List ChildEdge × ℕ
  | [], children => (children, 0)
  | root :: rest, children =>
    match setEdgeOrderKey root (afterKey prev) children with
    | none => reorderFrom (some (afterKey prev)) rest children
    | some children' =>
      let out := reorderFrom (some (afterKey prev)) rest children'
      (out.1, out.2 + 1)

def reorderCollectionArtifacts (roots : List String) (children : List ChildEdge) : List ChildEdge × ℕ :=
  reorderFrom none roots children

/-! ### Requests -/

structure ReorderRequest where
  orderVersion : ℕ
  orderedIds : List String

/-- What the requests are made of: the digest of a text (six bytes of its SHA-256), the root each id resolves to,
and the requests. -/
structure Reordering where
  digest : String → ℕ
  resolve : String → Option String
  request : ℕ → ReorderRequest

/-- A request between its edge writes.  `base` is the order its first edge write found, `left` the one its last write so
far has left. -/
structure Rewriting where
  todo : List String
  prev : Option String
  applied : ℕ
  base : List ChildEdge
  left : List ChildEdge

def Rewriting.start (roots : List String) (children : List ChildEdge) : Rewriting := ⟨roots, none, 0, children, children⟩

/-- One edge write; an `add_edge` that raises is caught and updates nothing. -/
def Rewriting.next (w : Rewriting) (raises : Bool) (children : List ChildEdge) : List ChildEdge × Rewriting :=
  match w.todo with
  | [] => (children, w)
  | root :: rest =>
    let key := afterKey w.prev
    match if raises then none else setEdgeOrderKey root key children with
    | none => (children, { w with todo := rest, prev := some key, left := children })
    | some children' =>
      (children', { w with todo := rest, prev := some key, applied := w.applied + 1, left := children' })

inductive ReorderPhase
  | waiting
  /-- The version matched; no edge is written yet. -/
  | accepted
  | rewriting (w : Rewriting)
  | succeeded (base left : List ChildEdge)
  /-- 409. -/
  | conflict
  /-- 400. -/
  | incomplete

/-- The container's children and how far each request is. -/
structure Reorders where
  children : List ChildEdge
  phase : ℕ → ReorderPhase

inductive ReorderEvent
  | compare (i : ℕ)
  | write (i : ℕ) (raises : Bool)
  | finish (i : ℕ)

namespace Reordering

variable {i j : ℕ}

variable (K : Reordering)

def orderFingerprint (children : List ChildEdge) : ℕ := K.digest ("\n".intercalate (orderedRoots children))

def version (i : ℕ) : ℕ := (K.request i).orderVersion

/-- The roots `_reorder_children` resolves the ids to. -/
def roots (i : ℕ) : List String := (K.request i).orderedIds.filterMap K.resolve

def start (children : List ChildEdge) : Reorders := ⟨children, fun _ => .waiting⟩

def enter (s : Reorders) (i : ℕ) (p : ReorderPhase) : Reorders := { s with phase := Function.update s.phase i p }

def writeNext (s : Reorders) (i : ℕ) (raises : Bool) (w : Rewriting) : Reorders :=
  let out := w.next raises s.children
  enter { s with children := out.1 } i (.rewriting out.2)

def step (s : Reorders) : ReorderEvent → Reorders
  | .compare i =>
    match s.phase i with
    | .waiting =>
      if K.version i ≠ K.orderFingerprint s.children then enter s i .conflict
      -- nothing to write: the call goes on to the count at once
      else if K.roots i = [] then enter s i (.rewriting (.start [] s.children))
      else enter s i .accepted
    | _ => s
  | .write i raises =>
    match s.phase i with
    | .accepted => writeNext s i raises (.start (K.roots i) s.children)
    | .rewriting w => writeNext s i raises w
    | _ => s
  | .finish i =>
    match s.phase i with
    | .rewriting w =>
      if w.todo ≠ [] then s
      else if w.applied ≠ (K.request i).orderedIds.length then enter s i .incomplete
      else enter s i (.succeeded w.base w.left)
    | _ => s

def run (s : Reorders) (events : List ReorderEvent) : Reorders := events.foldl K.step s

/-! ### What a step does -/

variable {K}

/-- The request has edges left to write. -/
def Busy (s : Reorders) (i : ℕ) : Prop :=
  s.phase i = .accepted ∨ ∃ w, s.phase i = .rewriting w ∧ w.todo ≠ []

/-- The request is past the comparison. -/
def Accepted (s : Reorders) (i : ℕ) : Prop := s.phase i ≠ .waiting ∧ s.phase i ≠ .conflict

/-- The request's next edge write, as it stands before it. -/
def Writing (K : Reordering) (s : Reorders) (i : ℕ) (w : Rewriting) : Prop :=
  s.phase i = .accepted ∧ w = .start (K.roots i) s.children ∨ s.phase i = .rewriting w

theorem step_cases (s : Reorders) (e : ReorderEvent) :
    K.step s e = s ∨
      (∃ i p, e = .compare i ∧ s.phase i = .waiting ∧ K.step s e = enter s i p ∧
        (p = .conflict ∨ K.version i = K.orderFingerprint s.children ∧
          (p = .accepted ∧ K.roots i ≠ [] ∨ p = .rewriting (.start [] s.children) ∧ K.roots i = []))) ∨
      (∃ i raises w, e = .write i raises ∧ Writing K s i w ∧ K.step s e = writeNext s i raises w) ∨
      ∃ i w p, e = .finish i ∧ s.phase i = .rewriting w ∧ w.todo = [] ∧ K.step s e = enter s i p ∧
        (p = .incomplete ∨ p = .succeeded w.base w.left ∧ w.applied = (K.request i).orderedIds.length) := by
  cases e with
  | compare i =>
    cases hp : s.phase i with
    | waiting =>
      refine .inr (.inl ?_)
      by_cases hv : K.version i = K.orderFingerprint s.children
      · by_cases hr : K.roots i = []
        · refine ⟨i, _, rfl, hp, ?_, .inr ⟨hv, .inr ⟨rfl, hr⟩⟩⟩
          simp only [step, hp, hv, hr, ne_eq, not_true_eq_false, if_false, if_true]
        · refine ⟨i, _, rfl, hp, ?_, .inr ⟨hv, .inl ⟨rfl, hr⟩⟩⟩
          simp only [step, hp, hv, hr, ne_eq, not_true_eq_false, if_false]
      · refine ⟨i, _, rfl, hp, ?_, .inl rfl⟩
        simp only [step, hp]
        rw [if_pos hv]
    | _ => exact .inl (by simp only [step, hp])
  | write i raises =>
    cases hp : s.phase i with
    | accepted => exact .inr (.inr (.inl ⟨i, raises, _, rfl, .inl ⟨hp, rfl⟩, by simp only [step, hp]⟩))
    | rewriting w => exact .inr (.inr (.inl ⟨i, raises, w, rfl, .inr hp, by simp only [step, hp]⟩))
    | _ => exact .inl (by simp only [step, hp])
  | finish i =>
    cases hp : s.phase i with
    | rewriting w =>
      by_cases ht : w.todo = []
      · refine .inr (.inr (.inr ?_))
        by_cases ha : w.applied = (K.request i).orderedIds.length
        · refine ⟨i, w, _, rfl, hp, ht, ?_, .inr ⟨rfl, ha⟩⟩
          simp only [step, hp]
          rw [if_neg (not_not_intro ht), if_neg (not_not_intro ha)]
        · refine ⟨i, w, _, rfl, hp, ht, ?_, .inl rfl⟩
          simp only [step, hp]
          rw [if_neg (not_not_intro ht), if_pos ha]
      · refine .inl ?_
        simp only [step, hp]
        rw [if_pos ht]
    | _ => exact .inl (by simp only [step, hp])

@[simp] theorem enter_children (s : Reorders) (i : ℕ) (p : ReorderPhase) : (enter s i p).children = s.children := rfl

@[simp] theorem enter_self (s : Reorders) (i : ℕ) (p : ReorderPhase) : (enter s i p).phase i = p := by
  unfold enter
  exact Function.update_self ..

variable {p : ReorderPhase} {s : Reorders}

theorem enter_of_ne (h : j ≠ i) : (enter s i p).phase j = s.phase j := by
  unfold enter
  exact Function.update_of_ne h ..

@[simp] theorem writeNext_children (s : Reorders) (i : ℕ) (raises : Bool) (w : Rewriting) :
    (writeNext s i raises w).children = (w.next raises s.children).1 := rfl

@[simp] theorem writeNext_self (s : Reorders) (i : ℕ) (raises : Bool) (w : Rewriting) :
    (writeNext s i raises w).phase i = .rewriting (w.next raises s.children).2 := enter_self _ _ _

variable {w : Rewriting}

theorem writeNext_of_ne {raises : Bool} (h : j ≠ i) :
    (writeNext s i raises w).phase j = s.phase j := enter_of_ne h

theorem next_cons {root : String} {rest : List String} (ht : w.todo = root :: rest) (raises : Bool)
    (children : List ChildEdge) :
    (w.next raises children).2.todo = rest ∧ (w.next raises children).2.base = w.base ∧
      (w.next raises children).2.left = (w.next raises children).1 ∧
      ((w.next raises children).2.applied = w.applied ∨
        (w.next raises children).2.applied = w.applied + 1 ∧
          reorderFrom w.prev w.todo children =
            ((reorderFrom (w.next raises children).2.prev rest (w.next raises children).1).1,
              (reorderFrom (w.next raises children).2.prev rest (w.next raises children).1).2 + 1)) := by
  unfold Rewriting.next
  rw [ht]
  cases raises with
  | true => exact ⟨rfl, rfl, rfl, .inl rfl⟩
  | false =>
    cases hs : setEdgeOrderKey root (afterKey w.prev) children with
    | none => simp [hs]
    | some children' => simp [hs, reorderFrom]

/-! ### No request writes while another has edges left -/

/-- The step writes an edge only if no other request is accepted with edges left. -/
def Alone (s : Reorders) : ReorderEvent → Prop
  | .write i _ => Busy s i → ∀ j, j ≠ i → ¬Busy s j
  | _ => True

/-- The rewrite found the order its request names, and has left that order with the edges written so far. -/
structure RewritingSound (K : Reordering) (i : ℕ) (children : List ChildEdge) (w : Rewriting) : Prop where
  base : K.orderFingerprint w.base = K.version i
  count : w.applied + w.todo.length ≤ (K.roots i).length
  left : w.todo ≠ [] → w.left = children
  whole : w.applied + w.todo.length = (K.roots i).length →
    (reorderCollectionArtifacts (K.roots i) w.base).1 = (reorderFrom w.prev w.todo w.left).1

def PhaseSound (K : Reordering) (children : List ChildEdge) (i : ℕ) : ReorderPhase → Prop
  | .accepted => K.orderFingerprint children = K.version i ∧ K.roots i ≠ []
  | .rewriting w => RewritingSound K i children w
  | .succeeded base left =>
    K.orderFingerprint base = K.version i ∧ left = (reorderCollectionArtifacts (K.roots i) base).1 ∧
      ((K.request i).orderedIds ≠ [] → K.roots i ≠ [])
  | _ => True

def OrderSound (K : Reordering) (s : Reorders) : Prop := ∀ i, PhaseSound K s.children i (s.phase i)

variable {children : List ChildEdge}

theorem RewritingSound.next (h : RewritingSound K i children w) (raises : Bool) :
    RewritingSound K i (w.next raises children).1 (w.next raises children).2 := by
  cases ht : w.todo with
  | nil =>
    have hn : w.next raises children = (children, w) := by
      unfold Rewriting.next
      rw [ht]
    rw [hn]
    exact h
  | cons root rest =>
    obtain ⟨htodo, hbase, hleft, happ⟩ := next_cons ht raises children
    have hcount := h.count
    rw [ht, List.length_cons] at hcount
    refine ⟨by rw [hbase]; exact h.base, ?_, fun _ => hleft, ?_⟩
    · rw [htodo]
      rcases happ with ha | ⟨ha, -⟩ <;> omega
    · rw [htodo, hleft, hbase]
      intro hc
      rcases happ with ha | ⟨ha, hr⟩
      · -- this write missed its edge
        omega
      · have hw := h.whole (by rw [ht, List.length_cons]; omega)
        rw [hw, h.left (by rw [ht]; exact List.cons_ne_nil root rest), hr]

theorem Writing.sound (hs : OrderSound K s) (hw : Writing K s i w) :
    RewritingSound K i s.children w := by
  have hi := hs i
  rcases hw with ⟨hp, rfl⟩ | hp
  · rw [hp] at hi
    exact ⟨hi.1, le_of_eq (Nat.zero_add _), fun _ => rfl, fun _ => rfl⟩
  · rw [hp] at hi
    exact hi

theorem phaseSound_of_not_busy (hj : ¬Busy s j) (h : PhaseSound K s.children j (s.phase j)) :
    PhaseSound K children j (s.phase j) := by
  cases hp : s.phase j with
  | accepted => exact absurd (.inl hp) hj
  | rewriting w =>
    rw [hp] at h
    exact ⟨h.base, h.count, fun ht => absurd (.inr ⟨w, hp, ht⟩) hj, h.whole⟩
  | succeeded base left =>
    rw [hp] at h
    exact h
  | _ => trivial

theorem Writing.busy_or (hs : OrderSound K s) (hw : Writing K s i w) (raises : Bool) :
    (Busy s i ∧ ∃ root rest, w.todo = root :: rest) ∨ writeNext s i raises w = s := by
  have hi := hs i
  rcases hw with ⟨hp, rfl⟩ | hp
  · rw [hp] at hi
    exact .inl ⟨.inl hp, List.exists_cons_of_ne_nil hi.2⟩
  · by_cases ht : w.todo = []
    · refine .inr ?_
      have hn : w.next raises s.children = (s.children, w) := by
        unfold Rewriting.next
        rw [ht]
      simp only [writeNext, enter, hn, ← hp, Function.update_eq_self]
    · exact .inl ⟨.inr ⟨w, hp, ht⟩, List.exists_cons_of_ne_nil ht⟩

theorem OrderSound.step {e : ReorderEvent} (hs : OrderSound K s) (ha : Alone s e) :
    OrderSound K (K.step s e) := by
  intro j
  rcases step_cases s e with he | ⟨i, p, rfl, hp, he, hc⟩ | ⟨i, raises, w, rfl, hw, he⟩ | ⟨i, w, p, rfl, hp, ht, he, hc⟩
  · rw [he]
    exact hs j
  · rw [he, enter_children]
    by_cases hji : j = i
    · subst hji
      rw [enter_self]
      rcases hc with rfl | ⟨hv, ⟨rfl, hr⟩ | ⟨rfl, hr⟩⟩
      · trivial
      · exact ⟨hv.symm, hr⟩
      · exact ⟨hv.symm, Nat.zero_le _, fun _ => rfl, fun _ => by rw [hr]; rfl⟩
    · rw [enter_of_ne hji]
      exact hs j
  · rcases hw.busy_or hs raises with ⟨hb, -⟩ | hsame
    · rw [he, writeNext_children]
      by_cases hji : j = i
      · subst hji
        rw [writeNext_self]
        exact (hw.sound hs).next raises
      · rw [writeNext_of_ne hji]
        exact phaseSound_of_not_busy (ha hb j hji) (hs j)
    · rw [he, hsame]
      exact hs j
  · rw [he, enter_children]
    by_cases hji : j = i
    · subst hji
      have hi := hs j
      rw [hp] at hi
      rw [enter_self]
      rcases hc with rfl | ⟨rfl, happ⟩
      · trivial
      · have hcount : (K.roots j).length ≤ (K.request j).orderedIds.length := List.length_filterMap_le _ _
        have hle := hi.count
        have hwhole := hi.whole
        rw [ht, List.length_nil, Nat.add_zero] at hle hwhole
        refine ⟨hi.base, (hwhole (by omega)).symm, fun hids hr => ?_⟩
        rw [hr, List.length_nil] at hle
        exact hids (List.length_eq_zero_iff.mp (by omega))
    · rw [enter_of_ne hji]
      exact hs j

/-! ### One success for each version -/

/-- The step accepts no request without ids, and the last edge write of a request leaves an order that no accepted
request names. -/
def Moves (K : Reordering) (s : Reorders) : ReorderEvent → Prop
  | .compare i => K.version i = K.orderFingerprint s.children → (K.request i).orderedIds ≠ []
  | .write i raises => ∀ w root, Writing K s i w → w.todo = [root] →
      ∀ j, Accepted s j → K.orderFingerprint (w.next raises s.children).1 ≠ K.version j
  | .finish _ => True

def Midway (s : Reorders) (i : ℕ) : Prop := ∃ w, s.phase i = .rewriting w ∧ w.todo ≠ []

/-- The request has written all its edges. -/
def Through (K : Reordering) (s : Reorders) (i : ℕ) : Prop := Accepted s i ∧ ¬Busy s i ∧ K.roots i ≠ []

structure OnceSound (K : Reordering) (s : Reorders) : Prop where
  ids : ∀ i, Accepted s i → (K.request i).orderedIds ≠ []
  moved : ∀ i, Through K s i → K.orderFingerprint s.children ≠ K.version i ∨ ∃ k, Midway s k
  once : ∀ i j, i ≠ j → K.version i = K.version j → Through K s i →
    ¬Through K s j ∧ (Busy s j → ∃ k, k ≠ j ∧ Midway s k)

theorem Midway.busy (h : Midway s i) : Busy s i := .inr h

theorem Busy.accepted (h : Busy s i) : Accepted s i := by
  rcases h with h | ⟨w, h, -⟩ <;> simp [Accepted, h]

theorem OnceSound.congr {s' : Reorders} (h : OnceSound K s) (hc : s'.children = s.children)
    (ha : ∀ j, Accepted s' j ↔ Accepted s j) (hb : ∀ j, Busy s' j ↔ Busy s j) (hm : ∀ j, Midway s' j ↔ Midway s j) :
    OnceSound K s' := by
  have ht : ∀ j, Through K s' j ↔ Through K s j := fun j => by
    unfold Through
    rw [ha, hb]
  refine ⟨fun i hi => h.ids i ((ha i).mp hi), fun i hi => ?_, fun i j hij hv hi => ?_⟩
  · simp only [hc, hm]
    exact h.moved i ((ht i).mp hi)
  · simp only [ht, hb, hm]
    exact h.once i j hij hv ((ht i).mp hi)

theorem accepted_enter (h : j ≠ i) :
    Accepted (enter s i p) j ↔ Accepted s j := by
  unfold Accepted
  rw [enter_of_ne h]

theorem busy_enter (h : j ≠ i) : Busy (enter s i p) j ↔ Busy s j := by
  unfold Busy
  rw [enter_of_ne h]

theorem midway_enter (h : j ≠ i) : Midway (enter s i p) j ↔ Midway s j := by
  unfold Midway
  rw [enter_of_ne h]

theorem OnceSound.compared (h : OnceSound K s) (hp : s.phase i = .waiting)
    (hids : Accepted (enter s i p) i → (K.request i).orderedIds ≠ []) (hthrough : ¬Through K (enter s i p) i)
    (hbusy : Busy (enter s i p) i → K.orderFingerprint s.children = K.version i) : OnceSound K (enter s i p) := by
  have hmid : ∀ k, Midway s k → k ≠ i ∧ Midway (enter s i p) k := by
    rintro k ⟨w, hk, ht⟩
    have hki : k ≠ i := by
      rintro rfl
      rw [hp] at hk
      cases hk
    exact ⟨hki, (midway_enter hki).mpr ⟨w, hk, ht⟩⟩
  have hth : ∀ k, Through K (enter s i p) k → k ≠ i ∧ Through K s k := by
    intro k hk
    have hki : k ≠ i := by
      rintro rfl
      exact hthrough hk
    refine ⟨hki, ?_⟩
    unfold Through at hk
    rwa [accepted_enter hki, busy_enter hki] at hk
  refine ⟨fun j hj => ?_, fun j hj => ?_, fun j l hjl hv hj => ?_⟩
  · by_cases hji : j = i
    · subst hji
      exact hids hj
    · exact h.ids j ((accepted_enter hji).mp hj)
  · rcases h.moved j (hth j hj).2 with hf | ⟨k, hk⟩
    · exact .inl hf
    · exact .inr ⟨k, (hmid k hk).2⟩
  · obtain ⟨hnot, hold⟩ := h.once j l hjl hv (hth j hj).2
    refine ⟨fun hl => hnot (hth l hl).2, fun hl => ?_⟩
    by_cases hli : l = i
    · subst hli
      -- its version is the order's, so a request of that version is through only while another one writes
      rcases h.moved j (hth j hj).2 with hf | ⟨k, hk⟩
      · exact absurd ((hbusy hl).trans hv.symm) hf
      · exact ⟨k, hmid k hk⟩
    · obtain ⟨k, hkl, hk⟩ := hold ((busy_enter hli).mp hl)
      exact ⟨k, hkl, (hmid k hk).2⟩

theorem OnceSound.wrote {raises : Bool} (h : OnceSound K s) (hb : Busy s i) (halone : ∀ j, j ≠ i → ¬Busy s j)
    (hlast : (w.next raises s.children).2.todo = [] →
      ∀ j, Accepted s j → K.orderFingerprint (w.next raises s.children).1 ≠ K.version j) :
    OnceSound K (writeNext s i raises w) := by
  have hacc : ∀ j, Accepted (writeNext s i raises w) j → Accepted s j := by
    intro j hj
    by_cases hji : j = i
    · subst hji
      exact hb.accepted
    · exact (accepted_enter hji).mp hj
  have hthrough : ∀ j, j ≠ i → Through K (writeNext s i raises w) j → Through K s j := by
    intro j hji hj
    unfold Through writeNext at hj
    rwa [accepted_enter hji, busy_enter hji] at hj
  have hbusy : ∀ j, j ≠ i → ¬Busy (writeNext s i raises w) j := fun j hji hj => halone j hji ((busy_enter hji).mp hj)
  -- nobody else can write, so no request of this version has been through before
  have hfirst : ∀ j, j ≠ i → K.version j = K.version i → ¬Through K s j := by
    intro j hji hv hj
    obtain ⟨k, hki, hk⟩ := (h.once j i hji hv hj).2 hb
    exact halone k hki hk.busy
  refine ⟨fun j hj => h.ids j (hacc j hj), fun j hj => ?_, fun j l hjl hv hj => ?_⟩
  · by_cases ht : (w.next raises s.children).2.todo = []
    · exact .inl (hlast ht j (hacc j hj.1))
    · exact .inr ⟨i, _, writeNext_self s i raises w, ht⟩
  · by_cases hji : j = i
    · subst hji
      have hlj : l ≠ j := fun he => hjl he.symm
      exact ⟨fun hl => hfirst l hlj hv.symm (hthrough l hlj hl), fun hl => absurd hl (hbusy l hlj)⟩
    · have hj' := hthrough j hji hj
      have hli : l ≠ i := by
        rintro rfl
        exact hfirst j hji hv hj'
      exact ⟨fun hl => (h.once j l hjl hv hj').1 (hthrough l hli hl), fun hl => absurd hl (hbusy l hli)⟩

theorem OnceSound.step {e : ReorderEvent} (h : OnceSound K s) (hs : OrderSound K s) (ha : Alone s e)
    (hm : Moves K s e) :
    OnceSound K (K.step s e) := by
  rcases step_cases s e with he | ⟨i, p, rfl, hp, he, hc⟩ | ⟨i, raises, w, rfl, hw, he⟩ | ⟨i, w, p, rfl, hp, ht, he, hc⟩
  · rw [he]
    exact h
  · rw [he]
    have hself := enter_self s i p
    rcases hc with rfl | ⟨hv, ⟨rfl, hr⟩ | ⟨rfl, hr⟩⟩
    · refine h.compared hp (fun hi => absurd hself hi.2) (fun hi => hi.1.2 hself) fun hi => ?_
      exact absurd hself hi.accepted.2
    · exact h.compared hp (fun _ => hm hv) (fun hi => hi.2.1 (.inl hself)) fun _ => hv.symm
    · exact h.compared hp (fun _ => hm hv) (fun hi => hi.2.2 hr) fun _ => hv.symm
  · rw [he]
    rcases hw.busy_or hs raises with ⟨hb, root, rest, htodo⟩ | hsame
    · refine h.wrote hb (ha hb) fun ht => ?_
      rw [(next_cons htodo raises s.children).1] at ht
      rw [ht] at htodo
      exact hm w root hw htodo
    · rw [hsame]
      exact h
  · rw [he]
    have hself := enter_self s i p
    have hpi : Accepted (enter s i p) i ∧ ¬Busy (enter s i p) i ∧ ¬Midway (enter s i p) i := by
      unfold Accepted Busy Midway
      rw [hself]
      rcases hc with rfl | ⟨rfl, -⟩ <;> simp
    have hsi : Accepted s i ∧ ¬Busy s i ∧ ¬Midway s i := by
      unfold Accepted Busy Midway
      rw [hp]
      simp [ht]
    refine h.congr rfl (fun j => ?_) (fun j => ?_) fun j => ?_
    all_goals by_cases hji : j = i
    · subst hji
      exact iff_of_true hpi.1 hsi.1
    · exact accepted_enter hji
    · subst hji
      exact iff_of_false hpi.2.1 hsi.2.1
    · exact busy_enter hji
    · subst hji
      exact iff_of_false hpi.2.2 hsi.2.2
    · exact midway_enter hji

/-! ### Runs -/

theorem orderSound_start (children : List ChildEdge) : OrderSound K (start children) := fun _ => trivial

theorem onceSound_start (children : List ChildEdge) : OnceSound K (start children) :=
  ⟨fun _ h => absurd rfl h.1, fun _ h => absurd rfl h.1.1, fun _ _ _ _ h => absurd rfl h.1.1⟩

theorem waiting_of_not_compared : ∀ (events : List ReorderEvent) (s : Reorders), s.phase j = .waiting →
    .compare j ∉ events → (K.run s events).phase j = .waiting
  | [], _, hs, _ => hs
  | e :: events, s, hs, hj => by
    refine waiting_of_not_compared events (K.step s e) ?_ fun h => hj (List.mem_cons_of_mem e h)
    have hne : ∀ i, e = .compare i → j ≠ i := by
      rintro i rfl rfl
      exact hj List.mem_cons_self
    rcases step_cases s e with he | ⟨i, p, hi, -, he, -⟩ | ⟨i, raises, w, -, hw, he⟩ | ⟨i, w, p, -, hp, -, he, -⟩
    · rw [he]
      exact hs
    · rw [he, enter_of_ne (hne i hi)]
      exact hs
    · rw [he, writeNext_of_ne]
      · exact hs
      · rintro rfl
        rcases hw with ⟨hp, -⟩ | hp <;> rw [hs] at hp <;> cases hp
    · rw [he, enter_of_ne]
      · exact hs
      · rintro rfl
        rw [hs] at hp
        cases hp

theorem alone_of_not_compared {events : List ReorderEvent} (raises : Bool) (h : ∀ j, j ≠ i → .compare j ∉ events) :
    Alone (K.run (start children) events) (.write i raises) := by
  intro _ j hj hb
  have hw := waiting_of_not_compared (K := K) events (start children) rfl (h j hj)
  exact hb.accepted.1 hw

variable (K)

theorem orderSound_run (children : List ChildEdge) (events : List ReorderEvent)
    (ha : Along K.step Alone (start children) events) : OrderSound K (K.run (start children) events) := by
  have hstep : ∀ s e, OrderSound K s → Alone s e → OrderSound K (K.step s e) := fun s e hs ha => hs.step ha
  exact along_inv hstep events (start children) (orderSound_start children) ha

theorem onceSound_run (children : List ChildEdge) (events : List ReorderEvent)
    (ha : Along K.step (fun s e => Alone s e ∧ Moves K s e) (start children) events) :
    OnceSound K (K.run (start children) events) := by
  have hstep : ∀ s e, OrderSound K s ∧ OnceSound K s → Alone s e ∧ Moves K s e →
      OrderSound K (K.step s e) ∧ OnceSound K (K.step s e) :=
    fun s e hs hc => ⟨hs.1.step hc.1, hs.2.step hs.1 hc.1 hc.2⟩
  exact (along_inv hstep events (start children) ⟨orderSound_start children, onceSound_start children⟩ ha).2

/-- **A stale reorder is refused where edge writes do not interleave.** -/
theorem stale_order_refused (children : List ChildEdge) (events : List ReorderEvent) :
    (Along K.step Alone (start children) events → ∀ i base left,
      (K.run (start children) events).phase i = .succeeded base left →
        K.orderFingerprint base = K.version i ∧ left = (reorderCollectionArtifacts (K.roots i) base).1) ∧
    (Along K.step (fun s e => Alone s e ∧ Moves K s e) (start children) events → ∀ i j, i ≠ j →
      K.version i = K.version j → ∀ base left base' left',
        ¬((K.run (start children) events).phase i = .succeeded base left ∧
          (K.run (start children) events).phase j = .succeeded base' left')) := by
  constructor
  · intro ha i base left hi
    have hs := orderSound_run K children events ha i
    rw [hi] at hs
    exact ⟨hs.1, hs.2.1⟩
  · intro ha i j hij hv base left base' left' h
    have hs := orderSound_run K children events (along_mono (fun _ _ h => h.1) events _ ha)
    have ho := onceSound_run K children events ha
    have hthrough : ∀ k b l, (K.run (start children) events).phase k = .succeeded b l →
        Through K (K.run (start children) events) k := by
      intro k b l hk
      have hacc : Accepted (K.run (start children) events) k := by simp [Accepted, hk]
      have hr := hs k
      rw [hk] at hr
      exact ⟨hacc, by simp [Busy, hk], hr.2.2 (ho.ids k hacc)⟩
    exact (ho.once i j hij hv (hthrough i base left h.1)).1 (hthrough j base' left' h.2)

def threeChildren : List ChildEdge :=
  [⟨"a", "contains", some "U"⟩, ⟨"b", "contains", some "V"⟩, ⟨"c", "contains", some "W"⟩]

def twoReorders : Reordering where
  digest := fun text =>
    if text = "a\nb\nc" then 257834143676973
    else if text = "b\na\nc" then 222453470538056
    else if text = "c\nb\na" then 11082135678666
    else 0
  resolve := fun id => if id ∈ ["a", "b", "c"] then some id else none
  request := fun i => ⟨257834143676973, if i = 0 then ["b", "a", "c"] else ["c", "b", "a"]⟩

def racing : List ReorderEvent :=
  [.compare 0, .compare 1, .write 0 false, .write 0 false, .write 0 false, .finish 0,
    .write 1 false, .write 1 false, .write 1 false, .finish 1]

def inTurn : List ReorderEvent :=
  [.compare 0, .write 0 false, .write 0 false, .write 0 false, .finish 0, .compare 1]

theorem inTurn_along :
    Along twoReorders.step (fun s e => Alone s e ∧ Moves twoReorders s e) (start threeChildren) inTurn := by
  have halone : ∀ n, Alone (twoReorders.run (start threeChildren) (.compare 0 :: List.replicate n (.write 0 false)))
      (.write 0 false) := by
    refine fun n => alone_of_not_compared false fun j hj h => ?_
    rcases List.mem_cons.mp h with h | h
    · cases h
      exact hj rfl
    · cases List.eq_of_mem_replicate h
  refine ⟨⟨trivial, fun _ => by decide⟩, ⟨halone 0, ?_⟩, ⟨halone 1, ?_⟩, ⟨halone 2, ?_⟩, ⟨trivial, trivial⟩,
    ⟨trivial, fun _ => by decide⟩, trivial⟩
  · rintro w root (⟨-, rfl⟩ | hw) ht
    · cases ht
    · cases hw
  · rintro w root (⟨hp, -⟩ | hw) ht
    · cases hp
    · cases hw
      cases ht
  · rintro w root (⟨hp, -⟩ | hw) - j -
    · cases hp
    · cases hw
      show _ ≠ 257834143676973
      decide +kernel

theorem stale_order_refused_inTurn :
    (∃ base left, (twoReorders.run (start threeChildren) inTurn).phase 0 = .succeeded base left ∧
      twoReorders.orderFingerprint base = twoReorders.version 0 ∧
        left = (reorderCollectionArtifacts (twoReorders.roots 0) base).1) ∧
    ∀ base left base' left', ¬((twoReorders.run (start threeChildren) inTurn).phase 0 = .succeeded base left ∧
      (twoReorders.run (start threeChildren) inTurn).phase 1 = .succeeded base' left') := by
  have h := stale_order_refused twoReorders threeChildren inTurn
  have halone := along_mono (fun _ _ h => h.1) inTurn _ inTurn_along
  exact ⟨⟨_, _, rfl, h.1 halone 0 _ _ rfl⟩, h.2 inTurn_along 0 1 (by decide) rfl⟩

theorem stale_reorder_succeeds :
    (¬∀ i base left, (twoReorders.run (start threeChildren) racing).phase i = .succeeded base left →
      twoReorders.orderFingerprint base = twoReorders.version i) ∧
    ¬∀ i j, i ≠ j → twoReorders.version i = twoReorders.version j →
      (twoReorders.request i).orderedIds ≠ (twoReorders.request j).orderedIds →
      ∀ base left base' left', ¬((twoReorders.run (start threeChildren) racing).phase i = .succeeded base left ∧
        (twoReorders.run (start threeChildren) racing).phase j = .succeeded base' left') := by
  refine ⟨fun h => ?_, fun h => ?_⟩
  · exact absurd (h 1 _ _ rfl) (by decide +kernel)
  · exact h 0 1 (by decide) rfl (by decide) _ _ _ _ ⟨rfl, rfl⟩

end Reordering

end Mantle
