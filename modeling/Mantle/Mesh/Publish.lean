import Mantle.Db.Documented
import Mantle.Db.Reshard
import Mantle.Mesh.Withhold

/-!
# Mantle.Mesh.Publish — a leaf object and the digest that is advertised for it

The digests come from the incremental tree, less the operational and the gated rows; the object of a leaf whose digest
moved is made by filtering its rows.
-/

namespace Mantle

open Tx

/-! ### Reading the leaves -/

def merkleCursorId : String := "s3.merkle.cursor"

def listCap : ℕ := 200000

/-- `list_by_leaf` of the artifact store: the documents of a leaf, and whether they are all. -/
def listByLeaf (db : Store) (leaf : ℕ) : List Doc × Bool :=
  let rows := (sortedVertices db).filter fun v => v.2.leaf = leaf
  ((rows.map fun v => v.2.doc.val).take listCap, decide (rows.length ≤ listCap))

def sortedEdges (db : Store) : List (EdgeKey × ERow) := db.edge.toPairs.insertionSort fun a b => a.1 ≤ b.1

/-- The props of a shipped edge: what is set of the promoted columns goes back among them. -/
def recordProps (r : ERow) : Doc :=
  [("force", r.force), ("propagate", r.propagate), ("is_origin", isOriginVal r.isOrigin),
    ("order_key", r.orderKey)].foldl (fun props e => if e.2.isNone then props else props.set e.1 e.2)
    r.props.val

def edgeRecord (r : ERow) : Doc :=
  [("f", .str r.src), ("t", .str r.dst), ("label", .str r.label),
   ("props", .dict (recordProps r).toItems)]

/-- `list_by_leaf` of the graph store. -/
def edgesByLeaf (db : Store) (leaf : ℕ) : List Doc × Bool :=
  let rows := (sortedEdges db).filter fun e => e.2.leaf = leaf
  ((rows.map fun e => edgeRecord e.2).take listCap, decide (rows.length ≤ listCap))

structure LeafObject where
  docs : List Doc
  edges : List Doc

/-- The published objects and the last summary of this node. -/
structure Plane where
  objects : Table ℕ LeafObject
  summary : Option (List ℤ)

def proj (d : Doc) : Doc := d.without fun k => k.toList.head? == some '@'

/-- The document goes into its leaf's object. -/
def ships (priv : List String) (d : Doc) : Bool :=
  !d.isEmpty && isReplicated (d.get "content_type") && (d.get "id").asStr.all fun id => decide (id ∉ priv)

def endpointHeld (db : Store) (priv : List String) (id : String) : Bool :=
  match docOf db id with
  | none => true
  | some d => !isReplicated (d.get "content_type") || decide (id ∈ priv)

def endpoints (erecs : List Doc) : List String :=
  (erecs.flatMap fun er => [er.get "f", er.get "t"]).filterMap fun v =>
    if v.truthy then some v.pyStr else none

def withheldEndpoints (db : Store) (erecs : List Doc) (priv : List String) : List String × Bool :=
  let ids := (endpoints erecs).dedup
  if ids.length > listCap then ([], false) else (ids.filter (endpointHeld db priv), true)

def leafObject (db : Store) (priv : List String) (li : ℕ) : Except PyErr (Option LeafObject) :=
  let docs := listByLeaf db li
  let erecs := edgesByLeaf db li
  if !(docs.2 && erecs.2) then .ok none
  else do
    let lines := (docs.1.filter (ships priv)).map proj
    let _ ← lines.mapM (Doc.dumps .minified)
    let held := withheldEndpoints db erecs.1 priv
    if !held.2 then pure none
    else do
      let records := erecs.1.filter fun er =>
        !held.1.any (er.get "f").eqStr && !held.1.any (er.get "t").eqStr
      let _ ← records.mapM (Doc.dumps .minified)
      pure (some ⟨lines, records⟩)

/-! ### Publishing -/

structure Upload where
  objects : Table ℕ LeafObject
  pub : List ℤ
  truncated : Bool
  incomplete : Bool

def recordHash (er : Doc) : ℕ :=
  let props := match er.get "props" with
    | .dict items => docOfItems items
    | _ => []
  contentHash (edgeKey (er.get "f").pyStr (er.get "t").pyStr (er.get "label").pyStr)
    (edgePropsContent props)

/-- The XOR of the hashes of the lines. -/
def LeafObject.digest (o : LeafObject) : XorNat :=
  (o.docs.map fun d => (⟨rowHash (d.get "id").pyStr (d.get "_seq")⟩ : XorNat)).sum +
    (o.edges.map fun er => (⟨recordHash er⟩ : XorNat)).sum

def VRow.operational (r : VRow) : Bool := opExclude.any r.ct.eqStr

/-! ### The tree, leaf by leaf -/

section Tree

variable {db : Store} {L : ℕ+} {i : ℕ}

end Tree

/-! ### The lines of an object -/

theorem Doc.without_set (d : Doc) {p : String → Bool} {k : String} (v : Val) (hk : p k = true) :
    (d.set k v).without p = d.without p := by
  unfold Doc.without
  induction d with
  | nil => simp [Doc.set, hk]
  | cons e d ih =>
    obtain ⟨k', v'⟩ := e
    unfold Doc.set
    split_ifs with h
    · subst h
      simp [hk]
    · rw [List.filter_cons, List.filter_cons, ih]

theorem get_of_plain {d : Doc} (h : blobOf d = d) {k : String}
    (hk : (decide (k ∈ promoted) || isPrivate k) = true) : d.get k = .none := by
  have hnone : ∀ e ∈ d, e.1 ≠ k := by
    intro e he
    rw [← h] at he
    have := List.of_mem_filter he
    rintro rfl
    simp [hk] at this
  have hfind : ∀ d' : Doc, (∀ e ∈ d', e.1 ≠ k) → d'.find? k = none := by
    intro d'
    induction d' with
    | nil => exact fun _ => rfl
    | cons e d' ih =>
      intro hd'
      obtain ⟨k', v⟩ := e
      have hne : k' ≠ k := hd' (k', v) (by simp)
      rw [Doc.find?, if_neg hne]
      exact ih fun e he => hd' e (by simp [he])
  unfold Doc.get
  rw [hfind d hnone]
  rfl

theorem recordProps_get {r : ERow} (hp : blobOf r.props.val = r.props.val) :
    (recordProps r).get "force" = r.force ∧ (recordProps r).get "propagate" = r.propagate ∧
      (recordProps r).get "is_origin" = isOriginVal r.isOrigin ∧
      (recordProps r).get "order_key" = r.orderKey ∧
      ∀ k, k ∉ promoted → (recordProps r).get k = r.props.val.get k := by
  have hput : ∀ (d : Doc) (k k' : String) (v : Val), (if v.isNone then d else d.set k v).get k' =
      if k' = k ∧ v.isNone = false then v else d.get k' := by
    intro d k k' v
    by_cases hv : v.isNone = true
    · simp [hv]
    · simp only [Bool.not_eq_true] at hv
      by_cases hk : k' = k
      · subst hk
        simp [hv]
      · simp [hv, hk, Doc.get_set_of_ne]
  have hnone : ∀ v : Val, (if v.isNone = false then v else .none) = v := by
    intro v
    cases v <;> rfl
  unfold recordProps
  simp only [List.foldl_cons, List.foldl_nil, hput]
  refine ⟨?_, ?_, ?_, ?_, ?_⟩
  · rw [get_of_plain hp (by decide)]
    simpa using hnone r.force
  · rw [get_of_plain hp (by decide)]
    simpa using hnone r.propagate
  · rw [get_of_plain hp (by decide)]
    simpa using hnone (isOriginVal r.isOrigin)
  · rw [get_of_plain hp (by decide)]
    simpa using hnone r.orderKey
  · intro k hk
    simp only [promoted, List.mem_cons, List.not_mem_nil, or_false, not_or] at hk
    simp [hk]

theorem recordProps_blob {r : ERow} (hp : blobOf r.props.val = r.props.val) :
    blobOf (recordProps r) = r.props.val := by
  have hblob : ∀ (d : Doc) (k : String) (v : Val), k ∈ promoted →
      blobOf (if v.isNone then d else d.set k v) = blobOf d := by
    intro d k v hk
    split_ifs
    · rfl
    · exact Doc.without_set d v (by simp [hk])
  unfold recordProps
  simp only [List.foldl_cons, List.foldl_nil]
  rw [hblob _ _ _ (by decide), hblob _ _ _ (by decide), hblob _ _ _ (by decide),
    hblob _ _ _ (by decide), hp]

theorem normIsOrigin_isOriginVal {i : Option ℤ} (h : i ∈ [none, some 0, some 1]) :
    normIsOrigin (isOriginVal i) = i := by
  simp only [List.mem_cons, List.not_mem_nil, or_false] at h
  rcases h with rfl | rfl | rfl <;> rfl

section Object

variable {db : Store} {L : ℕ+} {i : ℕ} {priv : List String}

theorem leafObject_some {o : LeafObject} (h : leafObject db priv i = .ok (some o)) :
    (listByLeaf db i).2 = true ∧ (edgesByLeaf db i).2 = true ∧
    o.docs = ((listByLeaf db i).1.filter (ships priv)).map proj ∧
    o.edges = (edgesByLeaf db i).1.filter fun er =>
      !(withheldEndpoints db (edgesByLeaf db i).1 priv).1.any (er.get "f").eqStr &&
      !(withheldEndpoints db (edgesByLeaf db i).1 priv).1.any (er.get "t").eqStr := by
  unfold leafObject at h
  dsimp only at h
  cases hall : (listByLeaf db i).2 && (edgesByLeaf db i).2 with
  | false =>
    rw [hall] at h
    cases h
  | true =>
    rw [hall] at h
    rw [Bool.and_eq_true] at hall
    refine ⟨hall.1, hall.2, ?_⟩
    obtain ⟨texts, hd, h⟩ := bind_ok h
    cases hheld : (withheldEndpoints db (edgesByLeaf db i).1 priv).2 with
    | false =>
      simp [hheld, pure, Except.pure] at h
    | true =>
      simp only [hheld, bind, Except.bind, pure, Except.pure, Bool.not_true, Bool.false_eq_true,
        if_false] at h
      split at h
      · cases h
      · cases h
        exact ⟨rfl, rfl⟩

end Object

end Mantle
