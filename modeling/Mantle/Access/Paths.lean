import Mantle.Access.Context
import Mantle.Db.Run

/-!
# Mantle.Access.Paths — what a context walk reaches, as paths

Without an expander a walk that hits no bound reaches exactly the ids at the end of a path whose composed authority
allows the action; a bound only takes ids away.
-/

namespace Mantle

variable {a : Action} {node x : String}

/-! ### The walk with any expander -/

/-- `Mask.allows`, of a name; an unknown name is allowed by nothing. -/
def Mask.allowsName (m : Mask) (action : String) : Bool := (Action.ofName action).any m.allows

/-- `compose`: the meet along a path. -/
def Mask.compose (masks : List Mask) : Mask := masks.foldl Mask.meet .top

/-- A `ContainmentExpander`; `none` is an exception. -/
abbrev Expander := Store → List String → Action → Option (List String)

structure SetOrder where
  iterate : ℕ → List String → List String
  perm : ∀ depth xs, (iterate depth xs).Perm xs

def SetOrder.listed : SetOrder := ⟨fun _ xs => xs, fun _ _ => List.Perm.refl _⟩

section Walk

variable (db : Store) (a : Action) (within : Option (List String)) (maxNodes : ℕ) (ord : SetOrder)
  (expand : Option Expander)

/-- `_containment`; an expander that raises withholds. -/
def containment (roots : List String) (f : Expander) : List String :=
  ((f db roots a).getD []).filter fun x => decide (x ≠ "")

def hopContained (h : Hop) (dst : String) : Hop :=
  if h.full || !admissible within h dst then h else h.enter maxNodes dst (Mask.ofNames [a.name])

/-- The containment below what the context edges reached, if there is an expander. -/
def hopExpand (depth : ℕ) (h : Hop) : Hop :=
  match expand with
  | none => h
  | some f =>
    if h.full || h.next.isEmpty then h
    else (ord.iterate depth (containment db a (h.next.map Prod.fst) f)).foldl (hopContained a within maxNodes) h

/-- The hops of `reach`; the fuel is how many are left. -/
def walkHops : ℕ → ℕ → List String → List String → List (String × Mask) → Except AccessErr ContextReach
  | fuel, depth, seen, reached, frontier =>
    if frontier.isEmpty then .ok ⟨reached, depth, none⟩
    else
      match fuel with
      | 0 => .ok ⟨reached, depth, some .depth⟩
      | fuel + 1 =>
        match hopFrontier db a within maxNodes frontier ⟨seen, reached, [], false⟩ with
        | .error e => .error e
        | .ok h =>
          let h := hopExpand db a within maxNodes ord expand (depth + 1) h
          if h.full then .ok ⟨h.reached, depth + 1, some .nodes⟩
          else walkHops fuel (depth + 1) h.seen h.reached h.next

end Walk

/-- `reach`; `within = none` is `UNCONFINED`. -/
def contextReach (ord : SetOrder) (db : Store) (seeds : List String) (action : String)
    (within : Option (List String)) (authority : Mask) (maxDepth maxNodes : ℤ) (expand : Option Expander) :
    Except AccessErr ContextReach :=
  match Action.ofName action with
  | none => .ok emptyReach
  | some a =>
    let universe? := within.map fun w => w.filter fun x => decide (x ≠ "")
    let seen := seeds.filter fun x => decide (x ≠ "")
    if !authority.allows a then .ok emptyReach
    else if universe?.any List.isEmpty then .ok emptyReach
    else if seen.isEmpty then .ok emptyReach
    else if universe?.any fun u => u.all fun x => decide (x ∈ seen) then .ok emptyReach
    else
      let walkable := seen.filter fun x => universe?.all fun u => decide (x ∈ u)
      if walkable.isEmpty then .ok emptyReach
      else
        walkHops db a universe? maxNodes.toNat ord expand maxDepth.toNat 0 seen []
          ((ord.iterate 0 walkable).map fun x => (x, authority))

/-! ### What one offer does -/

section Offer

variable (within : Option (List String)) (maxNodes : ℕ)

/-- The walk comes by an id and admits it under an authority, if the id passes. -/
def Hop.offer (passes : Bool) (dst : String) (held : Mask) (h : Hop) : Hop :=
  if h.full || !passes || !admissible within h dst then h else h.enter maxNodes dst held

def InUniverse (x : String) : Prop := ∀ u, within = some u → x ∈ u

variable {within maxNodes} {a : Action} {h h' : Hop} {passes : Bool} {dst : String} {held : Mask}

theorem hopEdge_eq (r : ERow) : hopEdge a within maxNodes held h r =
    h.offer within maxNodes
      (r.isOriginEdge && (held.meet (Mask.fromPropagate (edgeProp r r.propagate "propagate"))).allows a &&
        decide (r.dst ≠ ""))
      r.dst (held.meet (Mask.fromPropagate (edgeProp r r.propagate "propagate"))) := by
  unfold hopEdge Hop.offer
  dsimp only
  congr 1
  simp only [eq_iff_iff, Bool.or_eq_true, Bool.not_eq_true', Bool.and_eq_false_iff, decide_eq_true_eq,
    decide_eq_false_iff_not, not_not]
  tauto

theorem hopContained_eq : hopContained a within maxNodes h dst =
    h.offer within maxNodes true dst (Mask.ofNames [a.name]) := by
  unfold hopContained Hop.offer
  rw [Bool.not_true, Bool.or_false]

theorem admissible_iff : admissible within h dst = true ↔ dst ∉ h.seen ∧ InUniverse within dst := by
  unfold admissible InUniverse
  rw [Bool.and_eq_true, decide_eq_true_eq]
  cases within <;> simp

theorem Hop.offer_cases (within : Option (List String)) (maxNodes : ℕ) (h : Hop) (passes : Bool) (dst : String)
    (held : Mask) :
    h.offer within maxNodes passes dst held = h ∧
        (h.full = true ∨ (passes = true → InUniverse within dst → dst ∈ h.seen)) ∨
      h.full = false ∧ passes = true ∧ dst ∉ h.seen ∧ InUniverse within dst ∧
        (maxNodes ≤ h.reached.length ∧ h.offer within maxNodes passes dst held = { h with full := true } ∨
          h.reached.length < maxNodes ∧ h.offer within maxNodes passes dst held =
            { h with seen := dst :: h.seen, reached := h.reached ++ [dst], next := h.next ++ [(dst, held)] }) := by
  unfold Hop.offer
  split_ifs with hc
  · refine .inl ⟨rfl, ?_⟩
    simp only [Bool.or_eq_true, Bool.not_eq_true'] at hc
    rcases hc with (hf | hp) | ha
    · exact .inl hf
    · exact .inr fun h => by simp [hp] at h
    · refine .inr fun _ hin => ?_
      by_contra hseen
      rw [admissible_iff.mpr ⟨hseen, hin⟩] at ha
      cases ha
  · refine .inr ?_
    simp only [Bool.or_eq_true, Bool.not_eq_true', not_or, Bool.not_eq_true, Bool.not_eq_false] at hc
    obtain ⟨⟨hf, hp⟩, ha⟩ := hc
    obtain ⟨hseen, hin⟩ := admissible_iff.mp ha
    refine ⟨hf, hp, hseen, hin, ?_⟩
    unfold Hop.enter
    by_cases hn : h.reached.length ≥ maxNodes
    · rw [if_pos hn]
      exact .inl ⟨hn, rfl⟩
    · rw [if_neg hn]
      exact .inr ⟨Nat.lt_of_not_le hn, rfl⟩

/-- A later state of a hop. -/
structure Grows (h h' : Hop) : Prop where
  full : h'.full = false → h.full = false
  seen : ∀ x ∈ h.seen, x ∈ h'.seen
  reached : ∀ x ∈ h.reached, x ∈ h'.reached

theorem Grows.refl (h : Hop) : Grows h h := ⟨id, fun _ hx => hx, fun _ hx => hx⟩

theorem Grows.trans {h₁ h₂ h₃ : Hop} (h : Grows h₁ h₂) (h' : Grows h₂ h₃) : Grows h₁ h₃ :=
  ⟨fun hf => h.full (h'.full hf), fun x hx => h'.seen x (h.seen x hx), fun x hx => h'.reached x (h.reached x hx)⟩

theorem Hop.offer_grows : Grows h (h.offer within maxNodes passes dst held) := by
  rcases Hop.offer_cases within maxNodes h passes dst held with
    ⟨he, -⟩ | ⟨-, -, -, -, ⟨-, he⟩ | ⟨-, he⟩⟩
  · rw [he]
    exact .refl h
  · rw [he]
    exact ⟨fun hf => (nomatch hf), fun _ hx => hx, fun _ hx => hx⟩
  · rw [he]
    exact ⟨id, fun x hx => List.mem_cons_of_mem _ hx, fun x hx => List.mem_append_left _ hx⟩

theorem Hop.offer_seen (hf : (h.offer within maxNodes passes dst held).full = false) (hp : passes = true)
    (hin : InUniverse within dst) : dst ∈ (h.offer within maxNodes passes dst held).seen := by
  rcases Hop.offer_cases within maxNodes h passes dst held with
    ⟨he, hfull | hseen⟩ | ⟨-, -, -, -, ⟨-, he⟩ | ⟨-, he⟩⟩
  · rw [he, hfull] at hf
    cases hf
  · rw [he]
    exact hseen hp hin
  · rw [he] at hf
    cases hf
  · rw [he]
    exact List.mem_cons_self

/-- What a hop keeps: what is reached is no seed, is reached once, is within the bound and satisfies `Q`; what is new
among it is next; and where the bound is hit, it has left an id out. -/
structure Hop.Sound (a : Action) (maxNodes : ℕ) (Q : String → Prop) (seeds old : List String) (h : Hop) : Prop where
  seen : ∀ x, x ∈ h.seen ↔ x ∈ seeds ∨ x ∈ h.reached
  fresh : ∀ x ∈ h.reached, x ∉ seeds
  nodup : h.reached.Nodup
  bound : h.reached.length ≤ maxNodes
  holds : ∀ x ∈ h.reached, Q x
  next : ∀ e ∈ h.next, e.1 ∈ h.reached ∧ e.2.allows a = true
  newest : ∀ x ∈ h.reached, x ∈ old ∨ x ∈ h.next.map Prod.fst
  grown : old.length + h.next.length ≤ h.reached.length
  stopped : h.full = true → maxNodes ≤ h.reached.length ∧ ∃ x, Q x ∧ x ∉ h.reached

variable {Q : String → Prop} {seeds old : List String}

theorem Hop.Sound.offer (hs : h.Sound a maxNodes Q seeds old) (hq : passes = true → InUniverse within dst → Q dst)
    (hheld : passes = true → held.allows a = true) :
    (h.offer within maxNodes passes dst held).Sound a maxNodes Q seeds old := by
  rcases Hop.offer_cases within maxNodes h passes dst held with
    ⟨he, -⟩ | ⟨hf, hp, hseen, hin, ⟨hfull, he⟩ | ⟨hlt, he⟩⟩
  · rw [he]
    exact hs
  · rw [he]
    refine ⟨hs.seen, hs.fresh, hs.nodup, hs.bound, hs.holds, hs.next, hs.newest, hs.grown, ?_⟩
    exact fun _ => ⟨hfull, dst, hq hp hin, fun h => hseen ((hs.seen dst).mpr (.inr h))⟩
  · rw [he]
    rw [hs.seen, not_or] at hseen
    refine ⟨?_, ?_, ?_, ?_, ?_, ?_, ?_, ?_, ?_⟩
    · intro x
      simp only [List.mem_cons, List.mem_append, List.not_mem_nil, or_false, hs.seen]
      tauto
    · intro x hx
      rcases List.mem_append.mp hx with hx | hx
      · exact hs.fresh x hx
      · rw [List.mem_singleton.mp hx]
        exact hseen.1
    · refine List.nodup_append.mpr ⟨hs.nodup, List.nodup_singleton dst, ?_⟩
      intro x hx y hy hxy
      rw [List.mem_singleton.mp hy] at hxy
      exact hseen.2 (hxy ▸ hx)
    · rw [List.length_append]
      exact hlt
    · intro x hx
      rcases List.mem_append.mp hx with hx | hx
      · exact hs.holds x hx
      · rw [List.mem_singleton.mp hx]
        exact hq hp hin
    · intro e he
      rcases List.mem_append.mp he with he | he
      · exact ⟨List.mem_append_left _ (hs.next e he).1, (hs.next e he).2⟩
      · rw [List.mem_singleton.mp he]
        exact ⟨List.mem_append_right _ List.mem_cons_self, hheld hp⟩
    · intro x hx
      rw [List.map_append]
      rcases List.mem_append.mp hx with hx | hx
      · rcases hs.newest x hx with ho | hn
        · exact .inl ho
        · exact .inr (List.mem_append_left _ hn)
      · exact .inr (List.mem_append_right _ (by rw [List.mem_singleton.mp hx]; exact List.mem_cons_self))
    · have hg := hs.grown
      simp only [List.length_append, List.length_cons, List.length_nil]
      omega
    · rw [hf]
      exact fun h => (nomatch h)

/-- The first hop is cut where the second goes on. -/
def Cut (h h' : Hop) : Prop := h.full = false ∧ h = h' ∨ h.full = true ∧ ∀ x ∈ h.reached, x ∈ h'.reached

theorem Cut.reached (hc : Cut h h') : ∀ x ∈ h.reached, x ∈ h'.reached := by
  rcases hc with ⟨-, rfl⟩ | ⟨-, hr⟩
  · exact fun _ hx => hx
  · exact hr

theorem Cut.grows (hc : Cut h h') {g : Hop} (hf : h.full = true) (hg : Grows h' g) : Cut h g :=
  .inr ⟨hf, fun x hx => hg.reached x (hc.reached x hx)⟩

theorem Cut.offer {maxNodes' : ℕ} (hc : Cut h h')
    (hf : (h'.offer within maxNodes' passes dst held).full = false) :
    Cut (h.offer within maxNodes passes dst held) (h'.offer within maxNodes' passes dst held) := by
  cases hfull : h.full with
  | true =>
    have hstay : h.offer within maxNodes passes dst held = h := by
      unfold Hop.offer
      rw [hfull]
      rfl
    rw [hstay]
    exact hc.grows hfull Hop.offer_grows
  | false =>
    obtain rfl : h = h' := by
      rcases hc with ⟨-, he⟩ | ⟨ht, -⟩
      · exact he
      · rw [hfull] at ht
        cases ht
    unfold Hop.offer at hf ⊢
    split_ifs at hf ⊢ with hcond
    · exact .inl ⟨hfull, rfl⟩
    · unfold Hop.enter at hf ⊢
      by_cases hn' : h.reached.length ≥ maxNodes'
      · rw [if_pos hn'] at hf
        cases hf
      · rw [if_neg hn']
        by_cases hn : h.reached.length ≥ maxNodes
        · rw [if_pos hn]
          exact .inr ⟨rfl, fun x hx => List.mem_append_left _ hx⟩
        · rw [if_neg hn]
          exact .inl ⟨hfull, rfl⟩

end Offer

/-! ### One hop -/

section Hops

variable {db : Store} {a : Action} {within : Option (List String)} {maxNodes maxNodes' : ℕ} {ord : SetOrder}
  {expand : Option Expander} {Q : String → Prop} {seeds old : List String}

def contextMask (r : ERow) : Mask := Mask.fromPropagate (edgeProp r r.propagate "propagate")

/-- One origin context edge that lets the action through, to an id inside the universe. -/
def ContextStep (db : Store) (a : Action) (within : Option (List String)) (u v : String) : Prop :=
  ∃ key r, db.edge.lookup key = some r ∧ r.label = contextLabel ∧ r.src = u ∧ r.dst = v ∧ r.isOriginEdge = true ∧
    (contextMask r).allows a = true ∧ v ≠ "" ∧ InUniverse within v

theorem edges_grow {held : Mask} : ∀ (rows : List ERow) (h : Hop),
    Grows h (rows.foldl (hopEdge a within maxNodes held) h)
  | [], h => .refl h
  | r :: rows, h => by
    rw [List.foldl_cons]
    refine Grows.trans ?_ (edges_grow rows _)
    rw [hopEdge_eq]
    exact Hop.offer_grows

theorem edges_sound {held : Mask} (hheld : held.allows a = true) : ∀ (rows : List ERow) (h : Hop),
    h.Sound a maxNodes Q seeds old →
    (∀ r ∈ rows, r.isOriginEdge = true → (contextMask r).allows a = true → r.dst ≠ "" → InUniverse within r.dst → Q r.dst) →
    (rows.foldl (hopEdge a within maxNodes held) h).Sound a maxNodes Q seeds old
  | [], _, hs, _ => hs
  | r :: rows, h, hs, hq => by
    rw [List.foldl_cons]
    refine edges_sound hheld rows _ ?_ fun r' hr' => hq r' (List.mem_cons_of_mem r hr')
    rw [hopEdge_eq]
    simp only [Mask.allows_meet, hheld, Bool.true_and]
    refine hs.offer ?_ ?_
    · simp only [Bool.and_eq_true, decide_eq_true_eq]
      rintro ⟨⟨ho, hm⟩, hd⟩ hin
      exact hq r List.mem_cons_self ho hm hd hin
    · simp only [Bool.and_eq_true, Mask.allows_meet, hheld, Bool.true_and]
      exact fun hp => hp.1.2

theorem edges_seen {held : Mask} (hheld : held.allows a = true) : ∀ (rows : List ERow) (h : Hop),
    (rows.foldl (hopEdge a within maxNodes held) h).full = false → ∀ r ∈ rows, r.isOriginEdge = true →
      (contextMask r).allows a = true → r.dst ≠ "" → InUniverse within r.dst →
      r.dst ∈ (rows.foldl (hopEdge a within maxNodes held) h).seen
  | [], _, _, _, hr => nomatch hr
  | r :: rows, h, hf, r', hr' => by
    rw [List.foldl_cons] at hf ⊢
    rcases List.mem_cons.mp hr' with rfl | hr'
    · intro ho hm hd hin
      have hg := @edges_grow a within maxNodes held rows (hopEdge a within maxNodes held h r')
      refine hg.seen _ ?_
      have hfirst := hg.full hf
      rw [hopEdge_eq] at hfirst ⊢
      refine Hop.offer_seen hfirst ?_ hin
      simp only [Mask.allows_meet, hheld, Bool.true_and, Bool.and_eq_true, decide_eq_true_eq]
      exact ⟨⟨ho, hm⟩, hd⟩
    · exact edges_seen hheld rows _ hf r' hr'

theorem edges_cut {held : Mask} : ∀ (rows : List ERow) (h h' : Hop), Cut h h' →
    (rows.foldl (hopEdge a within maxNodes' held) h').full = false →
    Cut (rows.foldl (hopEdge a within maxNodes held) h) (rows.foldl (hopEdge a within maxNodes' held) h')
  | [], _, _, hc, _ => hc
  | r :: rows, h, h', hc, hf => by
    rw [List.foldl_cons] at hf
    rw [List.foldl_cons, List.foldl_cons]
    refine edges_cut rows _ _ ?_ hf
    have hfirst := (edges_grow rows _).full hf
    rw [hopEdge_eq] at hfirst
    rw [hopEdge_eq, hopEdge_eq]
    exact hc.offer hfirst

theorem frontier_cons {held : Mask} {rest : List (String × Mask)} {h h' : Hop}
    (hr : hopFrontier db a within maxNodes ((node, held) :: rest) h = .ok h') :
    h.full = true ∧ h' = h ∨ h.full = false ∧ ∃ rows, edgesOf db .out node contextLabel = .ok rows ∧
      hopFrontier db a within maxNodes rest (rows.foldl (hopEdge a within maxNodes held) h) = .ok h' := by
  rw [hopFrontier] at hr
  split_ifs at hr with hf
  · cases hr
    exact .inl ⟨hf, rfl⟩
  · refine .inr ⟨by simpa using hf, ?_⟩
    cases he : edgesOf db .out node contextLabel with
    | error e =>
      rw [he] at hr
      cases hr
    | ok rows =>
      rw [he] at hr
      exact ⟨rows, rfl, hr⟩

theorem frontier_grows : ∀ {frontier : List (String × Mask)} {h h' : Hop},
    hopFrontier db a within maxNodes frontier h = .ok h' → Grows h h'
  | [], _, _, hr => by
    cases hr
    exact .refl _
  | (node, held) :: rest, h, h', hr => by
    rcases frontier_cons hr with ⟨-, rfl⟩ | ⟨-, rows, -, hr⟩
    · exact .refl _
    · exact (edges_grow rows h).trans (frontier_grows hr)

theorem contextStep_of_mem {rows : List ERow} (hrows : edgesOf db .out node contextLabel = .ok rows) {r : ERow}
    (hr : r ∈ rows) (ho : r.isOriginEdge = true) (hm : (contextMask r).allows a = true) (hd : r.dst ≠ "")
    (hin : InUniverse within r.dst) : ContextStep db a within node r.dst := by
  unfold edgesOf at hrows
  split_ifs at hrows
  cases hrows
  obtain ⟨hs, hl, key, hk⟩ := mem_labelled.mp hr
  exact ⟨key, r, hk, hl, hs, rfl, ho, hm, hd, hin⟩

theorem mem_of_contextStep {v : String} {rows : List ERow} (hrows : edgesOf db .out node contextLabel = .ok rows)
    (h : ContextStep db a within node v) :
    ∃ r ∈ rows, r.dst = v ∧ r.isOriginEdge = true ∧ (contextMask r).allows a = true := by
  obtain ⟨key, r, hk, hl, hs, hd, ho, hm, -, -⟩ := h
  unfold edgesOf at hrows
  split_ifs at hrows
  cases hrows
  exact ⟨r, mem_labelled.mpr ⟨hs, hl, key, hk⟩, hd, ho, hm⟩

theorem frontier_sound : ∀ {frontier : List (String × Mask)} {h h' : Hop},
    hopFrontier db a within maxNodes frontier h = .ok h' → h.Sound a maxNodes Q seeds old →
    (∀ e ∈ frontier, e.2.allows a = true) → (∀ e ∈ frontier, ∀ v, ContextStep db a within e.1 v → Q v) →
    h'.Sound a maxNodes Q seeds old
  | [], _, _, hr, hs, _, _ => by
    cases hr
    exact hs
  | (node, held) :: rest, h, h', hr, hs, hheld, hq => by
    rcases frontier_cons hr with ⟨-, rfl⟩ | ⟨-, rows, hrows, hr⟩
    · exact hs
    · refine frontier_sound hr ?_ (fun e he => hheld e (List.mem_cons_of_mem _ he))
        fun e he => hq e (List.mem_cons_of_mem _ he)
      refine edges_sound (hheld _ List.mem_cons_self) rows h hs ?_
      intro r hr ho hm hd hin
      exact hq _ List.mem_cons_self _ (contextStep_of_mem hrows hr ho hm hd hin)

theorem frontier_seen : ∀ {frontier : List (String × Mask)} {h h' : Hop},
    hopFrontier db a within maxNodes frontier h = .ok h' → h'.full = false →
    (∀ e ∈ frontier, e.2.allows a = true) → ∀ e ∈ frontier, ∀ v, ContextStep db a within e.1 v → v ∈ h'.seen
  | [], _, _, _, _, _, _, he => nomatch he
  | (node, held) :: rest, h, h', hr, hf, hheld, e, he => by
    rcases frontier_cons hr with ⟨hfull, rfl⟩ | ⟨-, rows, hrows, hr⟩
    · rw [hfull] at hf
      cases hf
    · rcases List.mem_cons.mp he with rfl | he
      · intro v hv
        obtain ⟨r, hmem, rfl, ho, hm⟩ := mem_of_contextStep hrows hv
        obtain ⟨-, -, -, -, -, -, -, -, hd, hin⟩ := hv
        have hg := frontier_grows hr
        exact hg.seen _ (edges_seen (hheld _ List.mem_cons_self) rows h (hg.full hf) r hmem ho hm hd hin)
      · exact frontier_seen hr hf (fun e he => hheld e (List.mem_cons_of_mem _ he)) e he

theorem frontier_cut : ∀ {frontier : List (String × Mask)} {h h' g g' : Hop}, Cut h h' →
    hopFrontier db a within maxNodes frontier h = .ok g → hopFrontier db a within maxNodes' frontier h' = .ok g' →
    g'.full = false → Cut g g'
  | [], _, _, _, _, hc, hg, hg', _ => by
    cases hg
    cases hg'
    exact hc
  | (node, held) :: rest, h, h', g, g', hc, hg, hg', hf => by
    rcases frontier_cons hg with ⟨hfull, rfl⟩ | ⟨-, rows, hrows, hg⟩
    · exact hc.grows hfull (frontier_grows hg')
    · rcases frontier_cons hg' with ⟨hfull, rfl⟩ | ⟨-, rows', hrows', hg'⟩
      · rw [hfull] at hf
        cases hf
      · rw [hrows] at hrows'
        cases hrows'
        exact frontier_cut (edges_cut rows h h' hc ((frontier_grows hg').full hf)) hg hg' hf

theorem contained_grow : ∀ (found : List String) (h : Hop),
    Grows h (found.foldl (hopContained a within maxNodes) h)
  | [], h => .refl h
  | x :: found, h => by
    rw [List.foldl_cons]
    refine Grows.trans ?_ (contained_grow found _)
    rw [hopContained_eq]
    exact Hop.offer_grows

theorem contained_sound : ∀ (found : List String) (h : Hop), (∀ x ∈ found, InUniverse within x → Q x) →
    h.Sound a maxNodes Q seeds old →
    (found.foldl (hopContained a within maxNodes) h).Sound a maxNodes Q seeds old
  | [], _, _, hs => hs
  | x :: found, h, hq, hs => by
    rw [List.foldl_cons]
    refine contained_sound found _ (fun y hy => hq y (List.mem_cons_of_mem x hy)) ?_
    rw [hopContained_eq]
    refine hs.offer (fun _ => hq x List.mem_cons_self) fun _ => ?_
    simp [Mask.allows, Mask.ofNames]

theorem contained_cut : ∀ (found : List String) (h h' : Hop), Cut h h' →
    (found.foldl (hopContained a within maxNodes') h').full = false →
    Cut (found.foldl (hopContained a within maxNodes) h) (found.foldl (hopContained a within maxNodes') h')
  | [], _, _, hc, _ => hc
  | x :: found, h, h', hc, hf => by
    rw [List.foldl_cons] at hf
    rw [List.foldl_cons, List.foldl_cons]
    refine contained_cut found _ _ ?_ hf
    have hfirst := (contained_grow found _).full hf
    rw [hopContained_eq] at hfirst
    rw [hopContained_eq, hopContained_eq]
    exact hc.offer hfirst

theorem expand_grows (depth : ℕ) (h : Hop) : Grows h (hopExpand db a within maxNodes ord expand depth h) := by
  unfold hopExpand
  cases expand with
  | none => exact .refl h
  | some f =>
    dsimp only
    split_ifs
    · exact .refl h
    · exact contained_grow _ h

theorem expand_sound (db : Store) (ord : SetOrder) (depth : ℕ) {h : Hop}
    (hq : expand = none ∨ ∀ x, x ≠ "" → InUniverse within x → Q x)
    (hs : h.Sound a maxNodes Q seeds old) :
    (hopExpand db a within maxNodes ord expand depth h).Sound a maxNodes Q seeds old := by
  unfold hopExpand
  cases expand with
  | none => exact hs
  | some f =>
    dsimp only
    split_ifs
    · exact hs
    · refine contained_sound _ h (fun x hx => hq.resolve_left (Option.some_ne_none f) x ?_) hs
      have hmem := (ord.perm _ _).mem_iff.mp hx
      unfold containment at hmem
      simpa using (List.mem_filter.mp hmem).2

theorem expand_cut {depth : ℕ} {h h' : Hop} (hc : Cut h h')
    (hf : (hopExpand db a within maxNodes' ord expand depth h').full = false) :
    Cut (hopExpand db a within maxNodes ord expand depth h) (hopExpand db a within maxNodes' ord expand depth h') := by
  cases hfull : h.full with
  | true =>
    have hstay : hopExpand db a within maxNodes ord expand depth h = h := by
      unfold hopExpand
      cases expand with
      | none => rfl
      | some f => simp [hfull]
    rw [hstay]
    exact hc.grows hfull (expand_grows depth h')
  | false =>
    obtain rfl : h = h' := by
      rcases hc with ⟨-, he⟩ | ⟨ht, -⟩
      · exact he
      · rw [hfull] at ht
        cases ht
    unfold hopExpand at hf ⊢
    cases expand with
    | none => exact hc
    | some f =>
      dsimp only at hf ⊢
      split_ifs at hf ⊢
      · exact hc
      · exact contained_cut _ h h hc hf

end Hops

/-! ### The whole walk -/

section Runs

variable {db : Store} {a : Action} {within : Option (List String)} {maxNodes maxNodes' : ℕ} {ord : SetOrder}
  {expand : Option Expander} {Q : String → Prop} {seeds : List String}

abbrev hopFrom (seen reached : List String) : Hop := ⟨seen, reached, [], false⟩

theorem Hop.Sound.again {h : Hop} {old : List String} (hs : h.Sound a maxNodes Q seeds old) :
    (hopFrom h.seen h.reached).Sound a maxNodes Q seeds h.reached :=
  ⟨hs.seen, hs.fresh, hs.nodup, hs.bound, hs.holds, fun _ he => (nomatch he), fun _ hx => .inl hx, le_rfl,
    fun hf => (nomatch hf)⟩

theorem walk_nil (fuel depth : ℕ) (seen reached : List String) :
    walkHops db a within maxNodes ord expand fuel depth seen reached [] = .ok ⟨reached, depth, none⟩ := by
  cases fuel <;> rfl

/-- **One hop and the rest.** -/
theorem walk_step {fuel depth : ℕ} {seen reached : List String} {frontier : List (String × Mask)} {r : ContextReach}
    (hr : walkHops db a within maxNodes ord expand fuel depth seen reached frontier = .ok r) :
    frontier = [] ∧ r = ⟨reached, depth, none⟩ ∨
      fuel = 0 ∧ r = ⟨reached, depth, some .depth⟩ ∨
      ∃ fuel' g, fuel = fuel' + 1 ∧ hopFrontier db a within maxNodes frontier (hopFrom seen reached) = .ok g ∧
        ((hopExpand db a within maxNodes ord expand (depth + 1) g).full = true ∧
            r = ⟨(hopExpand db a within maxNodes ord expand (depth + 1) g).reached, depth + 1, some .nodes⟩ ∨
          (hopExpand db a within maxNodes ord expand (depth + 1) g).full = false ∧
            walkHops db a within maxNodes ord expand fuel' (depth + 1)
              (hopExpand db a within maxNodes ord expand (depth + 1) g).seen
              (hopExpand db a within maxNodes ord expand (depth + 1) g).reached
              (hopExpand db a within maxNodes ord expand (depth + 1) g).next = .ok r) := by
  unfold walkHops at hr
  split_ifs at hr with hempty
  · cases hr
    exact .inl ⟨List.isEmpty_iff.mp hempty, rfl⟩
  · refine .inr ?_
    cases fuel with
    | zero =>
      cases hr
      exact .inl ⟨rfl, rfl⟩
    | succ fuel =>
      dsimp only at hr
      refine .inr ⟨fuel, ?_⟩
      cases hg : hopFrontier db a within maxNodes frontier (hopFrom seen reached) with
      | error e =>
        rw [hg] at hr
        cases hr
      | ok g =>
        rw [hg] at hr
        dsimp only at hr
        refine ⟨g, rfl, rfl, ?_⟩
        split_ifs at hr with hfull
        · cases hr
          exact .inl ⟨hfull, rfl⟩
        · exact .inr ⟨by simpa using hfull, hr⟩

theorem walk_sound (start : List String) (hstep : ∀ u v, u ∈ start ∨ Q u → ContextStep db a within u v → Q v)
    (hq : expand = none ∨ ∀ x, x ≠ "" → InUniverse within x → Q x) :
    ∀ {fuel depth : ℕ} {seen reached : List String} {frontier : List (String × Mask)} {r : ContextReach},
      walkHops db a within maxNodes ord expand fuel depth seen reached frontier = .ok r →
      (hopFrom seen reached).Sound a maxNodes Q seeds reached →
      (∀ e ∈ frontier, (e.1 ∈ start ∨ Q e.1) ∧ e.2.allows a = true) →
      (∀ x ∈ r.ids, x ∉ seeds) ∧ r.ids.Nodup ∧ r.ids.length ≤ maxNodes ∧ ∀ x ∈ r.ids, Q x := by
  intro fuel
  induction fuel with
  | zero =>
    intro depth seen reached frontier r hr hs hfront
    rcases walk_step hr with ⟨-, rfl⟩ | ⟨-, rfl⟩ | ⟨fuel', g, hfuel, -⟩
    · exact ⟨hs.fresh, hs.nodup, hs.bound, hs.holds⟩
    · exact ⟨hs.fresh, hs.nodup, hs.bound, hs.holds⟩
    · cases hfuel
  | succ fuel ih =>
    intro depth seen reached frontier r hr hs hfront
    rcases walk_step hr with ⟨-, rfl⟩ | ⟨-, rfl⟩ | ⟨fuel', g, hfuel, hg, hrest⟩
    · exact ⟨hs.fresh, hs.nodup, hs.bound, hs.holds⟩
    · exact ⟨hs.fresh, hs.nodup, hs.bound, hs.holds⟩
    · cases hfuel
      have hgs := frontier_sound hg hs (fun e he => (hfront e he).2) fun e he v hv =>
        hstep e.1 v (hfront e he).1 hv
      have hes := expand_sound db ord (depth + 1) hq hgs
      rcases hrest with ⟨-, rfl⟩ | ⟨-, hr⟩
      · exact ⟨hes.fresh, hes.nodup, hes.bound, hes.holds⟩
      · exact ih hr hes.again fun e he => ⟨.inr (hes.holds _ (hes.next e he).1), (hes.next e he).2⟩

theorem walk_closed (start : List String) :
    ∀ {fuel depth : ℕ} {seen reached : List String} {frontier : List (String × Mask)} {r : ContextReach},
      walkHops db a within maxNodes ord none fuel depth seen reached frontier = .ok r → r.limit = none →
      (hopFrom seen reached).Sound a maxNodes (fun _ => True) seeds reached →
      (∀ e ∈ frontier, e.2.allows a = true) →
      (∀ u, u ∈ start ∨ u ∈ reached → u ∉ frontier.map Prod.fst → ∀ v, ContextStep db a within u v → v ∈ seen) →
      ∀ u, u ∈ start ∨ u ∈ r.ids → ∀ v, ContextStep db a within u v → v ∈ seeds ∨ v ∈ r.ids := by
  intro fuel
  induction fuel with
  | zero =>
    intro depth seen reached frontier r hr hlim hs hheld hclosed u hu v hv
    rcases walk_step hr with ⟨rfl, rfl⟩ | ⟨-, rfl⟩ | ⟨fuel', g, hfuel, -⟩
    · exact (hs.seen v).mp (hclosed u hu (by simp) v hv)
    · cases hlim
    · cases hfuel
  | succ fuel ih =>
    intro depth seen reached frontier r hr hlim hs hheld hclosed
    rcases walk_step hr with ⟨rfl, rfl⟩ | ⟨-, rfl⟩ | ⟨fuel', g, hfuel, hg, hrest⟩
    · intro u hu v hv
      exact (hs.seen v).mp (hclosed u hu (by simp) v hv)
    · cases hlim
    · cases hfuel
      rcases hrest with ⟨-, rfl⟩ | ⟨hfull, hr⟩
      · cases hlim
      · have hgs := frontier_sound hg hs hheld fun _ _ _ _ => trivial
        refine ih hr hlim hgs.again (fun e he => (hgs.next e he).2) ?_
        intro u hu hnext v hv
        -- a node that is not new was closed before, or is on the frontier
        have hold : u ∈ start ∨ u ∈ reached := hu.imp_right fun h => (hgs.newest u h).resolve_right hnext
        by_cases hfr : u ∈ frontier.map Prod.fst
        · obtain ⟨e, he, rfl⟩ := List.mem_map.mp hfr
          exact frontier_seen hg hfull hheld e he v hv
        · exact (frontier_grows hg).seen v (hclosed u hold hfr v hv)

theorem walk_grows :
    ∀ {fuel depth : ℕ} {seen reached : List String} {frontier : List (String × Mask)} {r : ContextReach},
      walkHops db a within maxNodes ord expand fuel depth seen reached frontier = .ok r →
      ∀ x ∈ reached, x ∈ r.ids := by
  intro fuel
  induction fuel with
  | zero =>
    intro depth seen reached frontier r hr x hx
    rcases walk_step hr with ⟨-, rfl⟩ | ⟨-, rfl⟩ | ⟨fuel', g, hfuel, -⟩
    · exact hx
    · exact hx
    · cases hfuel
  | succ fuel ih =>
    intro depth seen reached frontier r hr x hx
    rcases walk_step hr with ⟨-, rfl⟩ | ⟨-, rfl⟩ | ⟨fuel', g, hfuel, hg, hrest⟩
    · exact hx
    · exact hx
    · cases hfuel
      have hx' := ((frontier_grows hg).trans
        (@expand_grows db a within maxNodes ord expand (depth + 1) g)).reached x hx
      rcases hrest with ⟨-, rfl⟩ | ⟨-, hr⟩
      · exact hx'
      · exact ih hr x hx'

theorem walk_cut :
    ∀ {fuel fuel' depth : ℕ} {seen reached : List String} {frontier : List (String × Mask)} {r r' : ContextReach},
      walkHops db a within maxNodes ord expand fuel depth seen reached frontier = .ok r →
      walkHops db a within maxNodes' ord expand fuel' depth seen reached frontier = .ok r' → r'.limit = none →
      ∀ x ∈ r.ids, x ∈ r'.ids := by
  intro fuel
  induction fuel with
  | zero =>
    intro fuel' depth seen reached frontier r r' hr hr' hlim
    have hids : r.ids = reached := by
      rcases walk_step hr with ⟨-, rfl⟩ | ⟨-, rfl⟩ | ⟨fuel, g, hfuel, -⟩
      · rfl
      · rfl
      · cases hfuel
    rw [hids]
    exact walk_grows hr'
  | succ fuel ih =>
    intro fuel' depth seen reached frontier r r' hr hr' hlim
    rcases walk_step hr with ⟨-, rfl⟩ | ⟨hfuel, -⟩ | ⟨_, g, hfuel, hg, hrest⟩
    · exact walk_grows hr'
    · cases hfuel
    · cases hfuel
      rcases walk_step hr' with ⟨rfl, rfl⟩ | ⟨-, rfl⟩ | ⟨_, g', rfl, hg', hrest'⟩
      · -- there was no frontier to go on from
        rw [walk_nil] at hr
        cases hr
        exact fun _ hx => hx
      · cases hlim
      · rcases hrest' with ⟨-, rfl⟩ | ⟨hfull', hr'⟩
        · cases hlim
        · have hcut := frontier_cut (.inl ⟨rfl, rfl⟩) hg hg' ((expand_grows _ g').full hfull')
          have hcut := @expand_cut db a within maxNodes _ ord expand _ _ _ hcut hfull'
          rcases hrest with ⟨-, rfl⟩ | ⟨hfull, hr⟩
          · exact fun x hx => walk_grows hr' x (hcut.reached x hx)
          · rcases hcut with ⟨-, he⟩ | ⟨ht, -⟩
            · rw [← he] at hr'
              exact ih hr hr' hlim
            · rw [hfull] at ht
              cases ht

theorem walk_unhit {w : List String} (hw : ∀ x, Q x → x ∈ w) (hn : w.length ≤ maxNodes)
    (hstep : ∀ u v, ContextStep db a within u v → Q v) (hq : expand = none ∨ ∀ x, x ≠ "" → InUniverse within x → Q x) :
    ∀ {fuel depth : ℕ} {seen reached : List String} {frontier : List (String × Mask)} {r : ContextReach},
      walkHops db a within maxNodes ord expand fuel depth seen reached frontier = .ok r →
      (hopFrom seen reached).Sound a maxNodes Q seeds reached →
      (∀ e ∈ frontier, e.2.allows a = true) → w.length < fuel + reached.length → r.limit = none := by
  have hfits : ∀ xs : List String, xs.Nodup → (∀ x ∈ xs, Q x) → xs.length ≤ w.length :=
    fun xs hnd hxs => hnd.length_le_of_subset fun x hx => hw x (hxs x hx)
  intro fuel
  induction fuel with
  | zero =>
    intro depth seen reached frontier r hr hs _ hlt
    have hlen := hfits reached hs.nodup hs.holds
    omega
  | succ fuel ih =>
    intro depth seen reached frontier r hr hs hheld hlt
    rcases walk_step hr with ⟨-, rfl⟩ | ⟨hfuel, -⟩ | ⟨fuel', g, hfuel, hg, hrest⟩
    · rfl
    · cases hfuel
    · cases hfuel
      have hgs := frontier_sound hg hs hheld fun e _ v hv => hstep e.1 v hv
      have hes := expand_sound db ord (depth + 1) hq hgs
      rcases hrest with ⟨hfull, rfl⟩ | ⟨-, hr⟩
      · -- the bound has left an id of the list out, and the list is no longer than the bound
        obtain ⟨hle, x, hx, hfresh⟩ := hes.stopped hfull
        have hlen := hfits (x :: _) (List.nodup_cons.mpr ⟨hfresh, hes.nodup⟩) fun y hy => by
          rcases List.mem_cons.mp hy with rfl | hy
          · exact hx
          · exact hes.holds y hy
        rw [List.length_cons] at hlen
        omega
      · cases hnext : (hopExpand db a within maxNodes ord expand (depth + 1) g).next with
        | nil =>
          rw [hnext, walk_nil] at hr
          cases hr
          rfl
        | cons e rest =>
          refine ih hr hes.again (fun e he => (hes.next e he).2) ?_
          have hg := hes.grown
          rw [hnext, List.length_cons] at hg
          omega

end Runs

/-! ### Paths -/

theorem Mask.compose_allows (a : Action) (masks : List Mask) :
    (Mask.compose masks).allows a = true ↔ ∀ m ∈ masks, m.allows a = true := by
  have hfold : ∀ (masks : List Mask) (start : Mask),
      (masks.foldl Mask.meet start).allows a = true ↔ start.allows a = true ∧ ∀ m ∈ masks, m.allows a = true := by
    intro masks
    induction masks with
    | nil => simp
    | cons m masks ih =>
      intro start
      rw [List.foldl_cons, ih, Mask.allows_meet]
      simp [and_assoc]
  unfold Mask.compose
  rw [hfold]
  exact and_iff_right rfl

inductive ContextPath (db : Store) (within : Option (List String)) (s : String) : List ERow → String → Prop
  | nil : ContextPath db within s [] s
  | snoc {path : List ERow} {u : String} {key : EdgeKey} {r : ERow} (h : ContextPath db within s path u)
      (hr : db.edge.lookup key = some r) (hl : r.label = contextLabel) (hs : r.src = u) (ho : r.isOriginEdge = true)
      (hd : r.dst ≠ "") (hin : InUniverse within r.dst) : ContextPath db within s (path ++ [r]) r.dst

/-- The id is no seed and lies at the end of a path whose masks, composed with the ceiling, allow the action. -/
def ReachedBy (db : Store) (seeds : List String) (action : String) (within : Option (List String)) (authority : Mask)
    (x : String) : Prop :=
  x ∉ seeds ∧ ∃ s ∈ seeds, s ≠ "" ∧ InUniverse within s ∧ ∃ path, ContextPath db within s path x ∧
    (authority.meet (Mask.compose (path.map contextMask))).allowsName action = true

theorem contextPath_iff {db : Store} {within : Option (List String)} {s : String} :
    (∃ path, ContextPath db within s path x ∧ (Mask.compose (path.map contextMask)).allows a = true) ↔
      Relation.ReflTransGen (ContextStep db a within) s x := by
  simp only [Mask.compose_allows, List.mem_map, forall_exists_index, and_imp, forall_apply_eq_imp_iff₂]
  constructor
  · rintro ⟨path, hpath, hall⟩
    induction hpath with
    | nil => exact .refl
    | @snoc path u key r _ hr hl hs ho hd hin ih =>
      refine (ih fun e he => hall e (List.mem_append_left _ he)).tail ?_
      exact ⟨key, r, hr, hl, hs, rfl, ho, hall r (List.mem_append_right _ List.mem_cons_self), hd, hin⟩
  · intro h
    induction h with
    | refl => exact ⟨[], .nil, fun _ he => (nomatch he)⟩
    | tail _ hstep ih =>
      obtain ⟨path, hpath, hall⟩ := ih
      obtain ⟨key, r, hr, hl, hs, rfl, ho, hm, hd, hin⟩ := hstep
      refine ⟨path ++ [r], hpath.snoc hr hl hs ho hd hin, ?_⟩
      intro e he
      rcases List.mem_append.mp he with he | he
      · exact hall e he
      · rw [List.mem_singleton.mp he]
        exact hm

section Answer

variable {db : Store} {seeds : List String} {action : String} {within : Option (List String)} {authority : Mask}

/-- The universe as the walk reads it: its ids, without the empty text. -/
def universeOf (within : Option (List String)) : Option (List String) :=
  within.map fun w => w.filter fun x => decide (x ≠ "")

theorem inUniverse_universeOf (hx : x ≠ "") : InUniverse (universeOf within) x ↔ InUniverse within x := by
  unfold InUniverse universeOf
  cases within with
  | none => simp
  | some w => simp [hx]

theorem contextStep_universeOf {u v : String} :
    ContextStep db a (universeOf within) u v ↔ ContextStep db a within u v := by
  constructor
  · rintro ⟨key, r, hr, hl, hs, hd, ho, hm, hv, hin⟩
    exact ⟨key, r, hr, hl, hs, hd, ho, hm, hv, (inUniverse_universeOf hv).mp hin⟩
  · rintro ⟨key, r, hr, hl, hs, hd, ho, hm, hv, hin⟩
    exact ⟨key, r, hr, hl, hs, hd, ho, hm, hv, (inUniverse_universeOf hv).mpr hin⟩

theorem Mask.allowsName_of {m : Mask} (ha : Action.ofName action = some a) :
    m.allowsName action = m.allows a := by
  unfold Mask.allowsName
  rw [ha, Option.any_some]

theorem reachedBy_iff (ha : Action.ofName action = some a) :
    ReachedBy db seeds action within authority x ↔ authority.allows a = true ∧ x ∉ seeds ∧
      ∃ s ∈ seeds, s ≠ "" ∧ InUniverse within s ∧ Relation.ReflTransGen (ContextStep db a within) s x := by
  unfold ReachedBy
  simp only [Mask.allowsName_of ha, Mask.allows_meet, Bool.and_eq_true]
  constructor
  · rintro ⟨hx, s, hs, hne, hin, path, hpath, hauth, hall⟩
    exact ⟨hauth, hx, s, hs, hne, hin, contextPath_iff.mp ⟨path, hpath, hall⟩⟩
  · rintro ⟨hauth, hx, s, hs, hne, hin, hreach⟩
    obtain ⟨path, hpath, hall⟩ := contextPath_iff.mpr hreach
    exact ⟨hx, s, hs, hne, hin, path, hpath, hauth, hall⟩

theorem ReachedBy.inside (h : ReachedBy db seeds action within authority x) : x ≠ "" ∧ InUniverse within x := by
  obtain ⟨hx, s, hs, hne, hin, path, hpath, -⟩ := h
  cases hpath with
  | nil => exact absurd hs hx
  | snoc _ _ _ _ _ hd hin => exact ⟨hd, hin⟩

variable (ord : SetOrder)

def walkableSeeds (seeds : List String) (within : Option (List String)) : List String :=
  (seeds.filter fun x => decide (x ≠ "")).filter fun x => (universeOf within).all fun u => decide (x ∈ u)

theorem mem_walkableSeeds {s : String} : s ∈ walkableSeeds seeds within ↔ s ∈ seeds ∧ s ≠ "" ∧ InUniverse within s := by
  unfold walkableSeeds
  simp only [List.mem_filter, decide_eq_true_eq]
  constructor
  · rintro ⟨⟨hs, hne⟩, hall⟩
    refine ⟨hs, hne, (inUniverse_universeOf hne).mp fun u hu => ?_⟩
    rw [hu] at hall
    simpa using hall
  · rintro ⟨hs, hne, hin⟩
    refine ⟨⟨hs, hne⟩, ?_⟩
    have hin' := (inUniverse_universeOf hne).mpr hin
    cases hu : universeOf within with
    | none => rfl
    | some u => simpa using hin' u hu

/-- The walk may end before its first hop. -/
def endsAtOnce (seeds : List String) (a : Action) (within : Option (List String)) (authority : Mask) : Bool :=
  !authority.allows a || (universeOf within).any List.isEmpty || (seeds.filter fun x => decide (x ≠ "")).isEmpty ||
    ((universeOf within).any fun u => u.all fun x => decide (x ∈ seeds.filter fun x => decide (x ≠ ""))) ||
    (walkableSeeds seeds within).isEmpty

theorem contextReach_eq (ha : Action.ofName action = some a) (maxDepth maxNodes : ℤ) (expand : Option Expander) :
    contextReach ord db seeds action within authority maxDepth maxNodes expand =
      if endsAtOnce seeds a within authority then .ok emptyReach
      else walkHops db a (universeOf within) maxNodes.toNat ord expand maxDepth.toNat 0
        (seeds.filter fun x => decide (x ≠ "")) []
        ((ord.iterate 0 (walkableSeeds seeds within)).map fun x => (x, authority)) := by
  unfold contextReach endsAtOnce
  rw [ha]
  dsimp only
  rw [show (within.map fun w => w.filter fun x => decide (x ≠ "")) = universeOf within from rfl,
    show ((seeds.filter fun x => decide (x ≠ "")).filter fun x => (universeOf within).all fun u => decide (x ∈ u)) =
      walkableSeeds seeds within from rfl]
  simp only [Bool.or_eq_true]
  split_ifs <;> first | rfl | (exfalso; tauto)

theorem not_reachedBy_of_endsAtOnce (ha : Action.ofName action = some a)
    (h : endsAtOnce seeds a within authority = true) (x : String) :
    ¬ReachedBy db seeds action within authority x := by
  intro hreach
  obtain ⟨hne, hin⟩ := hreach.inside
  obtain ⟨hauth, hx, s, hs, hsne, hsin, -⟩ := (reachedBy_iff ha).mp hreach
  unfold endsAtOnce at h
  simp only [Bool.or_eq_true, Bool.not_eq_true', List.isEmpty_iff, Option.any_eq_true, List.all_eq_true,
    decide_eq_true_eq, List.mem_filter] at h
  rcases h with (((h | ⟨u, hu, hempty⟩) | h) | ⟨u, hu, hall⟩) | h
  · rw [hauth] at h
    cases h
  · have hmem := (inUniverse_universeOf hsne).mpr hsin u hu
    rw [hempty] at hmem
    cases hmem
  · have hmem : s ∈ seeds.filter fun x => decide (x ≠ "") := List.mem_filter.mpr ⟨hs, by simpa using hsne⟩
    rw [h] at hmem
    cases hmem
  · exact hx (hall x ((inUniverse_universeOf hne).mpr hin u hu)).1
  · have hmem := mem_walkableSeeds.mpr ⟨hs, hsne, hsin⟩
    rw [h] at hmem
    cases hmem

variable {ord} {maxDepth maxNodes : ℤ} {expand : Option Expander} {r : ContextReach}

theorem start_sound (a : Action) (maxNodes : ℕ) (Q : String → Prop) :
    (hopFrom (seeds.filter fun x => decide (x ≠ "")) []).Sound a maxNodes Q
      (seeds.filter fun x => decide (x ≠ "")) [] :=
  ⟨fun x => by simp, fun _ h => (nomatch h), List.nodup_nil, Nat.zero_le _, fun _ h => (nomatch h),
    fun _ h => (nomatch h), fun _ h => (nomatch h), le_rfl, fun h => (nomatch h)⟩

theorem contextReach_ok (h : contextReach ord db seeds action within authority maxDepth maxNodes expand = .ok r) :
    r = emptyReach ∧ (∀ x, ¬ReachedBy db seeds action within authority x) ∨
      ∃ a, Action.ofName action = some a ∧ endsAtOnce seeds a within authority = false ∧ authority.allows a = true ∧
        walkHops db a (universeOf within) maxNodes.toNat ord expand maxDepth.toNat 0
          (seeds.filter fun x => decide (x ≠ "")) []
          ((ord.iterate 0 (walkableSeeds seeds within)).map fun x => (x, authority)) = .ok r := by
  cases ha : Action.ofName action with
  | none =>
    unfold contextReach at h
    rw [ha] at h
    cases h
    refine .inl ⟨rfl, ?_⟩
    rintro x ⟨-, s, -, -, -, path, -, hall⟩
    unfold Mask.allowsName at hall
    rw [ha] at hall
    cases hall
  | some a =>
    rw [contextReach_eq ord ha] at h
    cases hend : endsAtOnce seeds a within authority with
    | true =>
      rw [hend, if_pos rfl] at h
      cases h
      exact .inl ⟨rfl, not_reachedBy_of_endsAtOnce ha hend⟩
    | false =>
      rw [hend, if_neg Bool.false_ne_true] at h
      refine .inr ⟨a, rfl, hend, ?_, h⟩
      unfold endsAtOnce at hend
      simp only [Bool.or_eq_false_iff, Bool.not_eq_false'] at hend
      exact hend.1.1.1.1

theorem mem_startFrontier {e : String × Mask} :
    e ∈ (ord.iterate 0 (walkableSeeds seeds within)).map (fun x => (x, authority)) ↔
      (e.1 ∈ seeds ∧ e.1 ≠ "" ∧ InUniverse within e.1) ∧ e.2 = authority := by
  rw [List.mem_map]
  constructor
  · rintro ⟨x, hx, rfl⟩
    exact ⟨mem_walkableSeeds.mp ((ord.perm 0 _).mem_iff.mp hx), rfl⟩
  · rintro ⟨hx, rfl⟩
    exact ⟨e.1, (ord.perm 0 _).mem_iff.mpr (mem_walkableSeeds.mpr hx), rfl⟩

theorem inUniverse_of_universeOf (h : InUniverse (universeOf within) x) : InUniverse within x := by
  rintro w rfl
  exact (List.mem_filter.mp (h _ rfl)).1

theorem contextReach_inside
    (h : contextReach ord db seeds action within authority maxDepth maxNodes expand = .ok r) :
    (∀ x ∈ r.ids, InUniverse within x ∧ x ∉ seeds) ∧ r.ids.Nodup ∧ r.ids.length ≤ maxNodes.toNat := by
  rcases contextReach_ok h with ⟨rfl, -⟩ | ⟨a, ha, -, hauth, hr⟩
  · exact ⟨fun _ hx => (nomatch hx), List.nodup_nil, Nat.zero_le _⟩
  · obtain ⟨hfresh, hnd, hlen, hin⟩ := walk_sound (walkableSeeds seeds within)
      (Q := fun x => x ≠ "" ∧ InUniverse (universeOf within) x)
      (fun u v _ hv => hv.choose_spec.choose_spec.2.2.2.2.2.2) (.inr fun _ hne hx => ⟨hne, hx⟩) hr
      (start_sound a _ _) fun e he => by
        obtain ⟨hw, heq⟩ := mem_startFrontier.mp he
        exact ⟨.inl (mem_walkableSeeds.mpr hw), heq ▸ hauth⟩
    refine ⟨?_, hnd, hlen⟩
    intro x hx
    refine ⟨inUniverse_of_universeOf (hin x hx).2, fun hs => hfresh x hx ?_⟩
    exact List.mem_filter.mpr ⟨hs, decide_eq_true (hin x hx).1⟩

theorem reachedBy_of_mem (h : contextReach ord db seeds action within authority maxDepth maxNodes none = .ok r)
    (hx : x ∈ r.ids) : ReachedBy db seeds action within authority x := by
  have hoff := ((contextReach_inside h).1 x hx).2
  rcases contextReach_ok h with ⟨rfl, -⟩ | ⟨a, ha, -, hauth, hr⟩
  · cases hx
  · obtain ⟨-, -, -, hall⟩ := walk_sound (walkableSeeds seeds within)
      (Q := fun x => ∃ s ∈ seeds, s ≠ "" ∧ InUniverse within s ∧ Relation.ReflTransGen (ContextStep db a within) s x)
      (fun u v hu hv => by
        rw [contextStep_universeOf] at hv
        rcases hu with hu | ⟨s, hs, hne, hin, hreach⟩
        · obtain ⟨hs, hne, hin⟩ := mem_walkableSeeds.mp hu
          exact ⟨u, hs, hne, hin, .single hv⟩
        · exact ⟨s, hs, hne, hin, hreach.tail hv⟩)
      (.inl rfl) hr (start_sound a _ _) fun e he => by
        obtain ⟨hw, heq⟩ := mem_startFrontier.mp he
        exact ⟨.inl (mem_walkableSeeds.mpr hw), heq ▸ hauth⟩
    exact (reachedBy_iff ha).mpr ⟨hauth, hoff, hall x hx⟩

theorem mem_of_reachedBy (h : contextReach ord db seeds action within authority maxDepth maxNodes none = .ok r)
    (hlim : r.limit = none) (hx : ReachedBy db seeds action within authority x) : x ∈ r.ids := by
  rcases contextReach_ok h with ⟨-, hnone⟩ | ⟨a, ha, -, hauth, hr⟩
  · exact absurd hx (hnone x)
  · obtain ⟨-, hoff, s, hs, hne, hin, hreach⟩ := (reachedBy_iff ha).mp hx
    have hclosed := walk_closed (walkableSeeds seeds within) hr hlim (start_sound a _ _)
      (fun e he => (mem_startFrontier.mp he).2 ▸ hauth) fun u hu hfr => by
        -- every walkable seed is on the first frontier
        refine absurd ?_ hfr
        have hu' := mem_walkableSeeds.mp (hu.resolve_right List.not_mem_nil)
        exact List.mem_map.mpr ⟨(u, authority), mem_startFrontier.mpr ⟨hu', rfl⟩, rfl⟩
    have hend : x ∈ seeds ∨ x ∈ r.ids := by
      -- along the path every node is a seed inside the universe or is reached
      have hall : ∀ y, Relation.ReflTransGen (ContextStep db a within) s y →
          y ∈ walkableSeeds seeds within ∨ y ∈ r.ids := by
        intro y hy
        induction hy with
        | refl => exact .inl (mem_walkableSeeds.mpr ⟨hs, hne, hin⟩)
        | @tail u v _ hstep ih =>
          have hv := hstep.choose_spec.choose_spec.2.2.2.2.2.2
          rcases hclosed u ih v (contextStep_universeOf.mpr hstep) with hseed | hids
          · exact .inl (mem_walkableSeeds.mpr ⟨(List.mem_filter.mp hseed).1, hv.1, hv.2⟩)
          · exact .inr hids
      exact (hall x hreach).imp_left fun h => (mem_walkableSeeds.mp h).1
    exact hend.resolve_left hoff

theorem contextReach_cut {maxDepth' maxNodes' : ℤ} {r' : ContextReach}
    (h : contextReach ord db seeds action within authority maxDepth maxNodes expand = .ok r)
    (h' : contextReach ord db seeds action within authority maxDepth' maxNodes' expand = .ok r')
    (hlim : r'.limit = none) : ∀ x ∈ r.ids, x ∈ r'.ids := by
  rcases contextReach_ok h with ⟨rfl, -⟩ | ⟨a, ha, hend, -, hr⟩
  · exact fun _ hx => (nomatch hx)
  · rw [contextReach_eq ord ha, hend, if_neg Bool.false_ne_true] at h'
    exact walk_cut hr h' hlim

theorem contextReach_unhit (db : Store) (within : Option (List String)) (h : expand = none ∨ within.isSome = true) :
    ∃ bound : ℕ, ∀ (ord : SetOrder) seeds action authority (maxDepth maxNodes : ℤ) r, ↑bound < maxDepth →
      ↑bound ≤ maxNodes → contextReach ord db seeds action within authority maxDepth maxNodes expand = .ok r →
      r.limit = none := by
  -- the ids a walk can come by
  have hlist : ∃ (w : List String) (Q : String → Prop), (∀ x, Q x → x ∈ w) ∧
      (∀ a u v, ContextStep db a (universeOf within) u v → Q v) ∧
      (expand = none ∨ ∀ x, x ≠ "" → InUniverse (universeOf within) x → Q x) := by
    rcases h with rfl | hsome
    · refine ⟨db.edge.toPairs.map fun e => e.2.dst, fun x => x ∈ db.edge.toPairs.map fun e => e.2.dst,
        fun _ hx => hx, ?_, .inl rfl⟩
      rintro a u v ⟨key, r, hr, -, -, rfl, -⟩
      exact List.mem_map.mpr ⟨(key, r), Table.mem_toPairs.mpr hr, rfl⟩
    · obtain ⟨w, rfl⟩ := Option.isSome_iff_exists.mp hsome
      refine ⟨w, fun x => x ∈ w, fun _ hx => hx, ?_, .inr fun x _ hx => inUniverse_of_universeOf hx w rfl⟩
      intro a u v hv
      exact inUniverse_of_universeOf hv.choose_spec.choose_spec.2.2.2.2.2.2.2 w rfl
  obtain ⟨w, Q, hw, hstep, hq⟩ := hlist
  refine ⟨w.length, ?_⟩
  intro ord seeds action authority maxDepth maxNodes r hdepth hnodes hr
  rcases contextReach_ok hr with ⟨rfl, -⟩ | ⟨a, ha, -, hauth, hr⟩
  · rfl
  · refine walk_unhit hw (by omega) (hstep a) hq hr (start_sound a _ _)
      (fun e he => (mem_startFrontier.mp he).2 ▸ hauth) ?_
    rw [List.length_nil]
    omega

end Answer

/-! ### The walk of the light cone -/

/-- `list_origin_descendants`, as an expander. -/
def originExpander : Expander := fun db roots a => (listOriginDescendants db roots a).toOption

theorem descendants_ne {db : Store} {roots out : List String} (h : listOriginDescendants db roots a = .ok out) :
    ∀ x ∈ out, x ≠ "" := by
  intro x hx
  have hfuel : (db.edge.toPairs.map fun e => e.2.dst).length < db.edge.entries.length + 1 := by
    simp [Table.toPairs]
  have hlen : ((db.edge.toPairs.map fun e => e.2.dst).filter fun x => x ∉ roots).length < db.edge.entries.length + 1 :=
    Nat.lt_of_le_of_lt (List.length_filter_le _ _) hfuel
  obtain ⟨-, -, hfound⟩ := Walk.flood_ok (fun u v => child_mem_dsts) h hlen (fun _ hu => hu) fun u hu hn => absurd hu hn
  obtain ⟨hoff, u, hu, hreach⟩ := hfound x hx
  cases hreach with
  | refl => exact absurd hu hoff
  | tail _ hlast => exact (child_originStep hlast).choose_spec.choose_spec.2.2.2.2.2.2

theorem hopContainment_eq (db : Store) (a : Action) (within : Option (List String)) (maxNodes depth : ℕ) (h : Hop) :
    hopContainment db a within maxNodes h = hopExpand db a within maxNodes .listed (some originExpander) depth h := by
  unfold hopContainment hopExpand containment originExpander SetOrder.listed
  dsimp only
  split_ifs
  · rfl
  · cases hd : listOriginDescendants db (h.next.map Prod.fst) a with
    | error e => rfl
    | ok out =>
      have hall : (out.filter fun x => decide (x ≠ "")) = out :=
        List.filter_eq_self.mpr fun x hx => decide_eq_true (descendants_ne hd x hx)
      show _ = (out.filter fun x => decide (x ≠ "")).foldl (hopContained a within maxNodes) h
      rw [hall]
      rfl

theorem hops_eq (db : Store) (a : Action) (within : Option (List String)) (maxNodes : ℕ) :
    ∀ (fuel depth : ℕ) (seen reached : List String) (frontier : List (String × Mask)),
      hops db a within maxNodes fuel depth seen reached frontier =
        walkHops db a within maxNodes .listed (some originExpander) fuel depth seen reached frontier
  | 0, _, _, _, _ => rfl
  | fuel + 1, depth, seen, reached, frontier => by
    unfold hops walkHops
    by_cases hempty : frontier.isEmpty = true
    · rw [if_pos hempty, if_pos hempty]
    · rw [if_neg hempty, if_neg hempty]
      cases hopFrontier db a within maxNodes frontier ⟨seen, reached, [], false⟩ with
      | error e => rfl
      | ok h =>
        dsimp only
        rw [hopContainment_eq db a within maxNodes (depth + 1), hops_eq db a within maxNodes fuel]

/-- The walk of the light cone is the walk with `list_origin_descendants` below it. -/
theorem reach_eq_contextReach (db : Store) (seeds : List String) (a : Action) (within : Option (List String))
    (authority : Mask) (maxDepth maxNodes : ℕ) :
    reach db seeds a within authority maxDepth maxNodes =
      contextReach .listed db seeds a.name within authority maxDepth maxNodes (some originExpander) := by
  unfold reach contextReach
  rw [Action.ofName_name]
  simp only [hops_eq]
  rfl

/-! ### The answer -/

/-- **The context walk computes its paths**, where no bound is hit; under bounds it finds some of them. -/
theorem reach_computes_paths (db : Store) (seeds : List String) (action : String) (within : Option (List String))
    (authority : Mask) :
    (∀ ord maxDepth maxNodes r,
        contextReach ord db seeds action within authority maxDepth maxNodes none = .ok r → r.limit = none →
        ∀ x, x ∈ r.ids ↔ ReachedBy db seeds action within authority x) ∧
      (∀ expand ord maxDepth maxNodes r,
        contextReach ord db seeds action within authority maxDepth maxNodes expand = .ok r →
        ((∀ x ∈ r.ids, InUniverse within x ∧ x ∉ seeds) ∧ r.ids.Nodup ∧ r.ids.length ≤ maxNodes.toNat) ∧
          (expand = none → ∀ x ∈ r.ids, ReachedBy db seeds action within authority x) ∧
          ∀ maxDepth' maxNodes' r',
            contextReach ord db seeds action within authority maxDepth' maxNodes' expand = .ok r' →
            r'.limit = none → ∀ x ∈ r.ids, x ∈ r'.ids) ∧
      ∀ expand, expand = none ∨ within.isSome = true → ∃ bound : ℕ, ∀ ord maxDepth maxNodes r, ↑bound < maxDepth →
        ↑bound ≤ maxNodes → contextReach ord db seeds action within authority maxDepth maxNodes expand = .ok r →
        r.limit = none := by
  refine ⟨?_, ?_, ?_⟩
  · intro ord maxDepth maxNodes r h hlim x
    exact ⟨reachedBy_of_mem h, mem_of_reachedBy h hlim⟩
  · intro expand ord maxDepth maxNodes r h
    refine ⟨contextReach_inside h, ?_, fun _ _ _ h' hlim => contextReach_cut h h' hlim⟩
    rintro rfl
    exact fun x hx => reachedBy_of_mem h hx
  · intro expand hexp
    obtain ⟨bound, hbound⟩ := contextReach_unhit db within hexp
    exact ⟨bound, fun ord maxDepth maxNodes r hd hn h => hbound ord seeds action authority maxDepth maxNodes r hd hn h⟩

deriving instance DecidableEq for ContextReach

def ringNode : Node :=
  hereNode.run
    [.addEdges [.tuple (.str "a") (.str "b") (.str contextLabel) [("is_origin", .int 1), ("propagate", .str "[\"read\"]")],
      .tuple (.str "b") (.str "c") (.str contextLabel) [("is_origin", .int 1), ("propagate", .str "[\"read\"]")],
      .tuple (.str "c") (.str "d") (.str contextLabel) [("is_origin", .int 1), ("propagate", .str "[]")],
      .tuple (.str "c") (.str "a") (.str contextLabel) [("is_origin", .int 1)]] 500 true]

def ringReach (maxDepth maxNodes : ℤ) : Except AccessErr ContextReach :=
  contextReach .listed ringNode.db ["a"] "read" (some ["a", "b", "c", "d"]) .top maxDepth maxNodes none

theorem reach_computes_ring : ∃ r s, ringReach 9 9 = .ok r ∧ r.ids = ["b", "c"] ∧ ringReach 9 1 = .ok s ∧
    s.limit = some .nodes ∧ (∀ x ∈ s.ids, x ∈ r.ids) ∧
    (∀ x, x ∈ ["b", "c"] ↔ ReachedBy ringNode.db ["a"] "read" (some ["a", "b", "c", "d"]) .top x) := by
  obtain ⟨hr, hs⟩ : ringReach 9 9 = .ok ⟨["b", "c"], 3, none⟩ ∧ ringReach 9 1 = .ok ⟨["b"], 2, some .nodes⟩ := by
    decide +kernel
  obtain ⟨hpaths, hbounds, -⟩ := reach_computes_paths ringNode.db ["a"] "read" (some ["a", "b", "c", "d"]) .top
  refine ⟨_, _, hr, rfl, hs, rfl, ?_, ?_⟩
  · exact (hbounds none .listed 9 1 _ hs).2.2 9 9 _ hr rfl
  · exact hpaths .listed 9 9 _ hr rfl

end Mantle
