import Mantle.Base.Walk
import Mantle.Access.Mask
import Mantle.Db.Edge

/-!
# Mantle.Access.Graph — origin containment, read upward and downward

`origin_chain` follows the first origin parent up to a ceiling; `list_origin_descendants` searches every conducting
origin edge down.
-/

namespace Mantle

open Walk

/-- What an authorization read can raise. -/
inductive AccessErr
  | edgesTruncated
  | chainUnterminated
  | attributeError
  | cellPrincipalUnresolved
  /-- An `HTTPException`. -/
  | http (status : ℕ) (detail : String)
deriving DecidableEq, Repr

/-! ### Reading edges -/

inductive Side
  | out
  | inbound
deriving DecidableEq, Repr

def Side.of : Side → ERow → String
  | .out, r => r.src
  | .inbound, r => r.dst

def edgesOfLimit : ℕ := 1000000

/-- The edges of one label on one side of a node, in the order of their keys. -/
def labelled (db : Store) (side : Side) (node label : String) : List ERow :=
  ((db.edge.toPairs.filter fun e => side.of e.2 = node && e.2.label = label).insertionSort
    fun a b => a.1 ≤ b.1).map Prod.snd

/-- `edges_of`: every edge, or an exception. -/
def edgesOf (db : Store) (side : Side) (node label : String) : Except AccessErr (List ERow) :=
  if (labelled db side node label).length > edgesOfLimit then .error .edgesTruncated
  else .ok (labelled db side node label)

theorem mem_labelled {db : Store} {side : Side} {node label : String} {r : ERow} :
    r ∈ labelled db side node label ↔
      side.of r = node ∧ r.label = label ∧ ∃ key, db.edge.lookup key = some r := by
  unfold labelled
  simp only [List.mem_map, List.mem_insertionSort, List.mem_filter, Prod.exists, Bool.and_eq_true,
    decide_eq_true_eq]
  constructor
  · rintro ⟨key, r', ⟨hm, hs, hl⟩, rfl⟩
    exact ⟨hs, hl, key, Table.mem_toPairs.mp hm⟩
  · rintro ⟨hs, hl, key, hk⟩
    exact ⟨key, r, ⟨Table.mem_toPairs.mpr hk, hs, hl⟩, rfl⟩

/-- `_eprop`: the column, else the props. -/
def edgeProp (r : ERow) (column : Val) (key : String) : Val :=
  if column.isNone then r.props.val.get key else column

def ERow.isOriginEdge (r : ERow) : Bool :=
  (edgeProp r (isOriginVal r.isOrigin) "is_origin").truthy

def ERow.mask (r : ERow) : Val := propMask (edgeProp r r.propagate "propagate")

def ERow.conducts (r : ERow) (a : Action) : Bool := propagates r.mask a

def containsLabel : String := "contains"

/-! ### Upward -/

/-- `get_origin_parent`: the first origin edge into the node, if there is one. -/
def getOriginParent (db : Store) (id : String) : Except AccessErr (Option ERow) :=
  (edgesOf db .inbound id containsLabel).map fun rows => rows.find? ERow.isOriginEdge

/-- The parent a walk for `action` goes on to. -/
def conductingParent (db : Store) (a : Action) (id : String) : Except AccessErr (Option String) :=
  (getOriginParent db id).map fun r =>
    r.bind fun r => if r.src ≠ "" && r.conducts a then some r.src else none

def originWalkCeiling : ℕ := 10000

/-- The document of an id; an empty one is none. -/
def docOf (db : Store) (id : String) : Option Doc :=
  (db.vertex.lookup id).bind fun r => if r.doc.val.isEmpty then none else some r.doc.val

def rootIn (doc : Doc) (id : String) : String := ((doc.get "root_id").orElse (.str id)).pyStr

/-- The root a walk starts from when the caller gave none. -/
def chainRoot (db : Store) (id : String) (root : Option String) : String :=
  match root with
  | some r => if r = "" then rootIn ((docOf db id).getD []) id else r
  | none => rootIn ((docOf db id).getD []) id

/-- `origin_chain`: the artifact, its root, then each origin ancestor. -/
def originChain (db : Store) (id : String) (a : Action) (root : Option String) :
    Trail AccessErr String :=
  let cursor := chainRoot db id root
  if cursor = id then
    (climb (conductingParent db a) .chainUnterminated originWalkCeiling [id] id).cons id
  else
    ((climb (conductingParent db a) .chainUnterminated (originWalkCeiling - 1) [cursor, id]
      cursor).cons cursor).cons id

def anyParent (db : Store) (id : String) : Except AccessErr (Option String) :=
  (getOriginParent db id).map fun r => r.bind fun r => if r.src ≠ "" then some r.src else none

/-- `get_origin_root`.  Every step of the walk goes along another edge, so it ends by itself. -/
def getOriginRoot (db : Store) (id : String) : Except AccessErr String :=
  let t := climb (anyParent db) .chainUnterminated (db.edge.entries.length + 2) [id] id
  match t.ending with
  | some e => .error e
  | none => .ok (t.items.getLast?.getD id)

/-! ### Downward -/

/-- The members an action reaches through one node. -/
def conductingChildren (db : Store) (a : Action) (id : String) : Except AccessErr (List String) :=
  (edgesOf db .out id containsLabel).map fun rows =>
    (rows.filter fun r => r.isOriginEdge && r.conducts a && decide (r.dst ≠ "")).map ERow.dst

/-- `list_origin_descendants`: what lies below the seeds, the seeds apart. -/
def listOriginDescendants (db : Store) (seeds : List String) (a : Action) :
    Except AccessErr (List String) :=
  flood (conductingChildren db a) (db.edge.entries.length + 1) seeds seeds

/-! ### What lies below -/

def OriginStep (db : Store) (a : Action) (u v : String) : Prop :=
  ∃ key r, db.edge.lookup key = some r ∧ r.label = containsLabel ∧ r.src = u ∧ r.dst = v ∧
    r.isOriginEdge = true ∧ r.conducts a = true ∧ v ≠ ""

/-- A chain of conducting origin edges, perhaps none. -/
def Below (db : Store) (a : Action) : String → String → Prop :=
  Relation.ReflTransGen (OriginStep db a)

variable {db : Store} {a : Action}

theorem child_originStep {u v : String} (h : Child (conductingChildren db a) u v) :
    OriginStep db a u v := by
  obtain ⟨cs, hcs, hv⟩ := h
  unfold conductingChildren edgesOf at hcs
  split_ifs at hcs
  · cases hcs
  · cases hcs
    simp only [List.mem_map, List.mem_filter, Bool.and_eq_true, decide_eq_true_eq] at hv
    obtain ⟨r, ⟨hr, ⟨ho, hc⟩, hd⟩, rfl⟩ := hv
    obtain ⟨hs, hl, key, hk⟩ := mem_labelled.mp hr
    exact ⟨key, r, hk, hl, hs, rfl, ho, hc, hd⟩

theorem child_iff {u v : String} {cs : List String} (hcs : conductingChildren db a u = .ok cs) :
    Child (conductingChildren db a) u v ↔ OriginStep db a u v := by
  refine ⟨child_originStep, ?_⟩
  rintro ⟨key, r, hk, hl, hs, rfl, ho, hc, hd⟩
  refine ⟨cs, hcs, ?_⟩
  unfold conductingChildren edgesOf at hcs
  split_ifs at hcs
  · cases hcs
  · cases hcs
    simp only [List.mem_map, List.mem_filter, Bool.and_eq_true, decide_eq_true_eq]
    exact ⟨r, ⟨mem_labelled.mpr ⟨hs, hl, key, hk⟩, ⟨ho, hc⟩, hd⟩, rfl⟩

theorem child_mem_dsts {u v : String} (h : Child (conductingChildren db a) u v) :
    v ∈ db.edge.toPairs.map fun e => e.2.dst := by
  obtain ⟨key, r, hk, -, -, rfl, -⟩ := child_originStep h
  exact List.mem_map.mpr ⟨(key, r), Table.mem_toPairs.mpr hk, rfl⟩

theorem mem_descendants_iff {seeds out : List String} (h : listOriginDescendants db seeds a = .ok out)
    (x : String) : x ∈ seeds ∨ x ∈ out ↔ ∃ s ∈ seeds, Below db a s x := by
  have hfuel : (db.edge.toPairs.map fun e => e.2.dst).length < db.edge.entries.length + 1 := by
    simp [Table.toPairs]
  have hspec := mem_flood_iff (fun u v => child_mem_dsts) hfuel h
  rw [(hspec x).1]
  constructor
  · rintro ⟨s, hs, hx⟩
    exact ⟨s, hs, Relation.ReflTransGen.mono (fun _ _ => child_originStep) _ _ hx⟩
  · rintro ⟨s, hs, hx⟩
    -- every node on the way is found, hence readable, hence its edges are its children
    refine ⟨s, hs, ?_⟩
    induction hx with
    | refl => exact Relation.ReflTransGen.refl
    | @tail b c _ hbc ih =>
      obtain ⟨cs, hcs⟩ := (hspec b).2 ((hspec b).1.mpr ⟨s, hs, ih⟩)
      exact ih.tail ((child_iff hcs).mpr hbc)

end Mantle
