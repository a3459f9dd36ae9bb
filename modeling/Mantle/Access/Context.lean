import Mantle.Access.Graph

/-!
# Mantle.Access.Context — the bounded walk over the context lattice

Context edges compose the authority held with their masks, containment is expanded below what they reach, and nothing
outside `within` is admitted.
-/

namespace Mantle

def contextLabel : String := "context"

/-- Which bound stopped a walk. -/
inductive ReachLimit
  | depth
  | nodes
deriving DecidableEq, Repr

structure ContextReach where
  ids : List String
  depth : ℕ
  limit : Option ReachLimit

def ContextReach.truncated (r : ContextReach) : Bool := r.limit.isSome

def emptyReach : ContextReach := ⟨[], 0, none⟩

/-- A hop in progress: what is seen, what is reached, the next frontier, and whether the node bound
was hit. -/
structure Hop where
  seen : List String
  reached : List String
  next : List (String × Mask)
  full : Bool

section Reach

variable (db : Store) (a : Action) (within : Option (List String)) (maxNodes : ℕ)

/-- The id may be admitted: not seen, and not outside the ceiling. -/
def admissible (h : Hop) (dst : String) : Bool :=
  decide (dst ∉ h.seen) && within.all fun u => decide (dst ∈ u)

/-- Admit a node under an authority, unless the bound is hit. -/
def Hop.enter (h : Hop) (dst : String) (held : Mask) : Hop :=
  if h.reached.length ≥ maxNodes then { h with full := true }
  else { h with seen := dst :: h.seen, reached := h.reached ++ [dst], next := h.next ++ [(dst, held)] }

def hopEdge (held : Mask) (h : Hop) (r : ERow) : Hop :=
  let composed := held.meet (Mask.fromPropagate (edgeProp r r.propagate "propagate"))
  if h.full || !r.isOriginEdge || !composed.allows a || decide (r.dst = "") ||
      !admissible within h r.dst then h
  else h.enter maxNodes r.dst composed

/-- The context edges out of a frontier; nothing is read once the bound is hit. -/
def hopFrontier : List (String × Mask) → Hop → Except AccessErr Hop
  | [], h => .ok h
  | (node, held) :: rest, h =>
    if h.full then .ok h
    else do
      let rows ← edgesOf db .out node contextLabel
      hopFrontier rest (rows.foldl (hopEdge a within maxNodes held) h)

/-- Containment below what the context edges reached; a store that cannot answer withholds it. -/
def hopContainment (h : Hop) : Hop :=
  if h.full || h.next.isEmpty then h
  else
    let found := match listOriginDescendants db (h.next.map Prod.fst) a with
      | .ok ids => ids
      | .error _ => []
    found.foldl (fun h dst =>
      if h.full || !admissible within h dst then h
      else h.enter maxNodes dst (Mask.ofNames [a.name])) h

def hops : ℕ → ℕ → List String → List String → List (String × Mask) → Except AccessErr ContextReach
  | fuel, depth, seen, reached, frontier =>
    if frontier.isEmpty then .ok ⟨reached, depth, none⟩
    else
      match fuel with
      | 0 => .ok ⟨reached, depth, some .depth⟩
      | fuel + 1 =>
        match hopFrontier db a within maxNodes frontier ⟨seen, reached, [], false⟩ with
        | .error e => .error e
        | .ok h =>
          let h := hopContainment db a within maxNodes h
          if h.full then .ok ⟨h.reached, depth + 1, some .nodes⟩
          else hops fuel (depth + 1) h.seen h.reached h.next

end Reach

def defaultMaxDepth : ℕ := 64
def defaultMaxNodes : ℕ := 10000

/-- `reach`; `within = none` is `UNCONFINED`. -/
def reach (db : Store) (seeds : List String) (a : Action) (within : Option (List String))
    (authority : Mask) (maxDepth maxNodes : ℕ) : Except AccessErr ContextReach :=
  let universe? := within.map fun w => w.filter fun x => decide (x ≠ "")
  let seen := seeds.filter fun x => decide (x ≠ "")
  if !authority.allows a then .ok emptyReach
  else if universe?.any List.isEmpty then .ok emptyReach
  else if seen.isEmpty then .ok emptyReach
  else if universe?.any fun u => u.all fun x => decide (x ∈ seen) then .ok emptyReach
  else
    let walkable := seen.filter fun x => universe?.all fun u => decide (x ∈ u)
    if walkable.isEmpty then .ok emptyReach
    else hops db a universe? maxNodes maxDepth 0 seen [] (walkable.map fun x => (x, authority))

theorem reach_self (db : Store) (ids : List String) (a : Action) (authority : Mask)
    (maxDepth maxNodes : ℕ) :
    reach db ids a (some ids) authority maxDepth maxNodes = .ok emptyReach := by
  have hself : (some (ids.filter fun x => decide (x ≠ ""))).any (fun u => u.all fun x =>
      decide (x ∈ ids.filter fun x => decide (x ≠ ""))) = true := by
    rw [Option.any_some, List.all_eq_true]
    exact fun x hx => decide_eq_true hx
  unfold reach
  simp only [Option.map_some, hself, if_true]
  split_ifs <;> rfl

end Mantle
