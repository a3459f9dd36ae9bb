import Mantle.Db.OrderKeys
import Mantle.Db.Rewrite
import Mantle.Mesh.Publish
import Mantle.Service.Membership

/-!
# Mantle.Service.Ordering — the order of a collection's members

`reorder_collection_artifacts` rewrites one edge after the other under the keys `after_key` gives out; every reader of
the edges then sees its order.
-/

namespace Mantle.Ordering

open Tx

variable {c key root : String} {db db' : Store} {e r : ERow} {n : Node}

/-! ### Reading the order -/

/-- The edges out of a container, in the order of their keys. -/
def outRows (db : Store) (c : String) : List (EdgeKey × ERow) :=
  (db.edge.toPairs.filter fun e => e.2.src = c).insertionSort fun a b => a.1 ≤ b.1

/-- The edge as the order sees it. -/
def child (e : ERow) : ChildEdge := ⟨e.dst, e.label, (edgeProp e e.orderKey "order_key").asStr⟩

@[simp] theorem child_root (e : ERow) : (child e).root = e.dst := rfl

def children (db : Store) (c : String) : List ChildEdge := (outRows db c).map fun e => child e.2

def memberRoots (db : Store) (c : String) : List String := (outRows db c).map fun e => e.2.dst

/-- `order_fingerprint`; `digest` is the first six bytes of the SHA-256 of a text. -/
def orderFingerprint (digest : String → ℕ) (db : Store) (collectionId : String) : Except AccessErr ℕ :=
  (membershipEdges db collectionId).map fun edges => digest ("\n".intercalate (orderedRoots (edges.map child)))

/-- What the listing needs of the keys of the node: `decrypt_artifact_content(strict=False)` and `open_value`, `none`
where it raises. -/
structure Opening where
  content : Doc → Doc
  value : Val → Option String

def latticeInternal : List String := ["_origin", "_seq", "_rev", "_fp", "_type"]

/-- A row of the listing: the document it shows, and what it takes from the edge. -/
structure ListedMember where
  doc : Doc
  orderKey : Option String
  origin : Bool
  propagate : Val
  relationship : Option String

/-- Rows without a key come last. -/
def listedLe (a b : ListedMember) : Prop :=
  a.orderKey.isNone < b.orderKey.isNone ∨
    a.orderKey.isNone = b.orderKey.isNone ∧ a.orderKey.getD "" ≤ b.orderKey.getD ""

instance : DecidableRel listedLe := fun a b => by
  unfold listedLe
  infer_instance

def shownVersion (includeArchived : Bool) (db : Store) (collectionId rootId : String) : Option Doc :=
  let versions := versionsOf db rootId
  let inColl := versions.filter fun d => (d.get "collection_id").eqStr collectionId
  let live := versions.filter fun d => decide (stateOf d ≠ "archived")
  let newest := if inColl.isEmpty then versions else inColl
  let chosen := (currentIn versions collectionId).orElse fun _ =>
    live.getLast?.orElse fun _ => if includeArchived then newest.getLast? else none
  chosen.filter fun d => includeArchived || decide (stateOf d ≠ "archived")

namespace Opening

variable (O : Opening)

def shownDoc (chosen : Doc) : Doc := O.content (chosen.without fun k => k ∈ latticeInternal)

def listed (e : ERow) (chosen : Doc) : ListedMember where
  doc := O.shownDoc chosen
  orderKey := (edgeProp e e.orderKey "order_key").asStr
  origin := e.isOriginEdge
  propagate := e.mask
  relationship := shownLabel O.value e

def listCollectionArtifacts (includeArchived : Bool) (db : Store) (collectionId : String) :
    Except AccessErr (List ListedMember) :=
  (membershipEdges db collectionId).map fun edges =>
    (edges.filterMap fun e => (shownVersion includeArchived db collectionId e.dst).map (O.listed e)).insertionSort
      listedLe

end Opening

/-! ### Writing the order -/

def orderProps (e : ERow) (newOrderKey : String) : Doc :=
  ((e.props.val.set "order_key" (.str newOrderKey)).set "is_origin"
    (edgeProp e (isOriginVal e.isOrigin) "is_origin")).set "propagate" (edgeProp e e.propagate "propagate")

/-- An `add_edge` whose exception is caught, and whether it came back. -/
def triedEdge (e : EdgeArg) (n : Node) : Node × Bool :=
  match addEdges [e] 500 true n with
  | .ok _ n' => (n', true)
  | .error _ n' => (n', false)

def setEdgeOrderKey (n : Node) (collectionId rootId newOrderKey : String) : Except AccessErr (Node × Bool) :=
  (findMembership n.db collectionId rootId).map fun e =>
    match e with
    | none => (n, false)
    | some e => triedEdge (.tuple (.str collectionId) (.str rootId) (.str e.label) (orderProps e newOrderKey)) n

/-- The loop of `reorder_collection_artifacts`; a call that raises leaves what it has written. -/
def reorderFrom (collectionId : String) : Node → Option String → ℕ → List String → Node × Except AccessErr ℕ
  | n, _, updated, [] => (n, .ok updated)
  | n, prev, updated, root :: rest =>
    match setEdgeOrderKey n collectionId root (afterKey prev) with
    | .error e => (n, .error e)
    | .ok (n', wrote) =>
      reorderFrom collectionId n' (some (afterKey prev)) (if wrote then updated + 1 else updated) rest

def reorderCollectionArtifacts (n : Node) (collectionId : String) (orderedRootIds : List String) :
    Node × Except AccessErr ℕ :=
  reorderFrom collectionId n none 0 orderedRootIds

/-- What the node's key makes of a name: the hex digest of its HMAC under a purpose, and the sealed text. -/
structure Sealing where
  mac : String → String → String
  sealText : String → String

def systemLabels : List String := [containsLabel, "context", "authorizer", "link"]

def serPropagate : Option (List String) → Val
  | none => .none
  | some mask => .str ("[" ++ ", ".intercalate (mask.map jsonString) ++ "]")

namespace Sealing

variable (S : Sealing)

def labelToken (name : String) : String := tokenMark ++ S.mac "edge-label" name

def storedLabel (relationship : Option String) : String :=
  match relationship with
  | none => containsLabel
  | some r => if r = "" then containsLabel else if r ∈ systemLabels then r else S.labelToken r

def labelProps (relationship : Option String) : Doc :=
  match relationship with
  | none => []
  | some r =>
    if r = "" ∨ r ∈ systemLabels then []
    else
      let parts := r.splitOn "."
      [("label_sealed", .str (S.sealText r)),
       ("label_prefixes", .list ((List.range' 1 (parts.length - 1)).map fun i =>
          .str (S.labelToken (".".intercalate (parts.take i)))))]

def newProps (orderKey rootId : String) (origin : Bool) (propagate : Option (List String))
    (relationship : Option String) : Doc :=
  [("order_key", .str orderKey), ("is_origin", .bool origin), ("propagate", serPropagate propagate),
   ("root_id", .str rootId)] ++ S.labelProps relationship

def addArtifactToCollection (n : Node) (collectionId rootId : String) (orderKey : Option String) (origin : Bool)
    (propagate : Option (List String)) (relationship : Option String) : Except AccessErr (Node × Bool) :=
  (match orderKey with
    | some k => Except.ok k
    | none => (getLastOrderKey n.db collectionId).map afterKey).map fun key =>
    triedEdge (.tuple (.str collectionId) (.str rootId) (.str (S.storedLabel relationship))
      (S.newProps key rootId origin propagate relationship)) n

theorem addArtifactToCollection_contains (n : Node) (c x key : String) (origin : Bool) :
    (S.addArtifactToCollection n c x (some key) origin none none).map Prod.fst =
      .ok (n.endsAt (Mantle.addArtifactToCollection c x key origin)) := by
  unfold Mantle.addArtifactToCollection
  rw [endsAt_caught, endsAt_bind_pure]
  change Except.ok (triedEdge _ n).1 = _
  unfold triedEdge Node.endsAt
  refine congrArg Except.ok ?_
  change (match addEdges [.tuple (.str c) (.str x) (.str containsLabel) (membershipProps key x origin)] 500 true n with
    | .ok _ n' => (n', true)
    | .error _ n' => (n', false) : Node × Bool).1 = _
  cases addEdges [.tuple (.str c) (.str x) (.str containsLabel) (membershipProps key x origin)] 500 true n <;> rfl

end Sealing

/-! ### What the readers read -/

theorem membershipEdges_eq (db : Store) (c : String) : membershipEdges db c =
    if (outRows db c).length > edgesOfLimit then .error .edgesTruncated else .ok ((outRows db c).map Prod.snd) := rfl

theorem mem_outRows {key : EdgeKey} :
    (key, e) ∈ outRows db c ↔ db.edge.lookup key = some e ∧ e.src = c := by
  unfold outRows
  rw [List.mem_insertionSort, List.mem_filter, Table.mem_toPairs, decide_eq_true_eq]

theorem outRows_keys (db : Store) (c : String) : (outRows db c).Pairwise fun a b => a.1 < b.1 :=
  Table.sort_lt (db.edge.filter_keys _)

theorem outRows_eq {rows : List (EdgeKey × ERow)} (hrows : rows.Pairwise fun a b => a.1 < b.1)
    (h : ∀ key e, (key, e) ∈ rows ↔ db.edge.lookup key = some e ∧ e.src = c) : outRows db c = rows := by
  have hnd : ∀ {l : List (EdgeKey × ERow)}, l.Pairwise (fun a b => a.1 < b.1) → l.Nodup := fun hl =>
    hl.imp fun hab heq => (heq ▸ hab).false
  have hperm : (outRows db c).Perm rows := (List.perm_ext_iff_of_nodup (hnd (outRows_keys db c)) (hnd hrows)).mpr
    fun e => mem_outRows.trans (h e.1 e.2).symm
  exact hperm.eq_of_pairwise (fun _ _ _ _ hab hba => absurd hba hab.asymm) (outRows_keys db c) hrows

theorem findMembership_eq (hlen : (outRows db c).length ≤ edgesOfLimit) (root : String) :
    findMembership db c root = .ok (((outRows db c).find? fun e => e.2.dst = root).map Prod.snd) := by
  unfold findMembership
  rw [membershipEdges_eq, if_neg (by omega)]
  simp only [Except.map, List.find?_map]
  rfl

/-! ### One row rewritten -/

def putRow (key : EdgeKey) (r : ERow) (rows : List (EdgeKey × ERow)) : List (EdgeKey × ERow) :=
  rows.map fun e => if e.1 = key then (key, r) else e

theorem outRows_put {key : EdgeKey} (he : db.edge.lookup key = some e) (hs : e.src = c) (hr : r.src = c)
    (hdb : db'.edge = db.edge.insert key r) :
    outRows db' c = putRow key r (outRows db c) := by
  refine outRows_eq ?_ fun key' e' => ?_
  · unfold putRow
    rw [List.pairwise_map]
    refine (outRows_keys db c).imp fun {a b} hab => ?_
    have hfst : ∀ x : EdgeKey × ERow, (if x.1 = key then (key, r) else x).1 = x.1 := by
      intro x
      split_ifs with hx
      · exact hx.symm
      · rfl
    rwa [hfst, hfst]
  · unfold putRow
    rw [hdb, Table.lookup_insert_of, List.mem_map]
    constructor
    · rintro ⟨⟨k, x⟩, hx, heq⟩
      obtain ⟨hk, hsrc⟩ := mem_outRows.mp hx
      dsimp only at heq
      split_ifs at heq with hkey
      · cases heq
        exact ⟨if_pos rfl, hr⟩
      · cases heq
        exact ⟨by rw [if_neg hkey, hk], hsrc⟩
    · rintro ⟨hk, hsrc⟩
      split_ifs at hk with hkey
      · cases hk
        exact ⟨(key, e), mem_outRows.mpr ⟨he, hs⟩, by rw [if_pos rfl, hkey]⟩
      · exact ⟨(key', e'), mem_outRows.mpr ⟨hk, hsrc⟩, if_neg hkey⟩

theorem setEdgeOrderKey_putRow {k : EdgeKey} (hchild : child r = { child e with orderKey := some key }) :
    ∀ {rows : List (EdgeKey × ERow)},
    rows.Pairwise (fun a b => a.1 < b.1) → rows.find? (fun x => x.2.dst = root) = some (k, e) →
      Mantle.setEdgeOrderKey root key (rows.map fun x => child x.2) = some ((putRow k r rows).map fun x => child x.2)
  | [], _, hf => nomatch hf
  | x :: rest, hk, hf => by
    rw [List.pairwise_cons] at hk
    unfold putRow
    rw [List.map_cons, List.map_cons, List.map_cons]
    unfold Mantle.setEdgeOrderKey
    rw [List.find?_cons] at hf
    by_cases hx : x.2.dst = root
    · rw [decide_eq_true hx] at hf
      obtain rfl : x = (k, e) := Option.some.inj hf
      have hrest : rest.map (fun y => if y.1 = k then (k, r) else y) = rest := by
        conv_rhs => rw [← List.map_id rest]
        exact List.map_congr_left fun y hy => if_neg (hk.1 y hy).ne'
      rw [child_root, if_pos hx, if_pos rfl, hrest, hchild]
      rfl
    · rw [decide_eq_false hx] at hf
      have hne : x.1 ≠ k := by
        rintro rfl
        exact (hk.1 _ (List.mem_of_find?_eq_some hf)).false
      rw [child_root, if_neg hx, if_neg hne, setEdgeOrderKey_putRow hchild hk.2 hf]
      rfl

theorem setEdgeOrderKey_absent (key : String) : ∀ {rows : List (EdgeKey × ERow)},
    rows.find? (fun x => x.2.dst = root) = none → Mantle.setEdgeOrderKey root key (rows.map fun x => child x.2) = none
  | [], _ => rfl
  | x :: rest, hf => by
    rw [List.find?_cons] at hf
    rw [List.map_cons]
    unfold Mantle.setEdgeOrderKey
    by_cases hx : x.2.dst = root
    · rw [decide_eq_true hx] at hf
      cases hf
    · rw [decide_eq_false hx] at hf
      rw [child_root, if_neg hx, setEdgeOrderKey_absent key hf]
      rfl

/-! ### An edge written again -/

/-- What `_add_one` stores: the names are texts, the props have a JSON text and the content has been hashed. -/
structure Stored (e : ERow) : Prop where
  src : e.src ≠ ""
  dst : e.dst ≠ ""
  label : e.label ≠ ""
  props : ∃ t, e.props.val.dumps .plain = .ok t
  content : Hashable (edgeRowContent e)

theorem orderProps_get {k : EdgeKey} (hs : EdgesSound db) (he : db.edge.lookup k = some e) (key : String) :
    (orderProps e key).get "force" = .none ∧ (orderProps e key).get "order_key" = .str key ∧
      (orderProps e key).get "is_origin" = isOriginVal e.isOrigin ∧ (orderProps e key).get "propagate" = e.propagate ∧
      blobOf (orderProps e key) = e.props.val := by
  have hplain : ∀ name, (decide (name ∈ promoted) || isPrivate name) = true → e.props.val.get name = .none := fun name =>
    get_of_plain (hs.plain k e he)
  have hcol : ∀ v name, (decide (name ∈ promoted) || isPrivate name) = true → edgeProp e v name = v := by
    intro v name hname
    unfold edgeProp
    rw [hplain name hname]
    cases v <;> rfl
  unfold orderProps
  refine ⟨?_, ?_, ?_, ?_, ?_⟩
  · rw [Doc.get_set_of_ne _ _ (by decide), Doc.get_set_of_ne _ _ (by decide), Doc.get_set_of_ne _ _ (by decide)]
    exact hplain "force" (by decide)
  · rw [Doc.get_set_of_ne _ _ (by decide), Doc.get_set_of_ne _ _ (by decide), Doc.get_set_self]
  · rw [Doc.get_set_of_ne _ _ (by decide), Doc.get_set_self, hcol _ "is_origin" (by decide)]
  · rw [Doc.get_set_self, hcol _ "propagate" (by decide)]
  · unfold blobOf
    rw [Doc.without_set _ _ (by decide), Doc.without_set _ _ (by decide), Doc.without_set _ _ (by decide)]
    exact hs.plain k e he

/-- The row after the write: another key, no force, and all else as it was. -/
structure Rekeyed (e : ERow) (key : String) (r : ERow) : Prop where
  src : r.src = e.src
  dst : r.dst = e.dst
  label : r.label = e.label
  force : r.force = .none
  orderKey : r.orderKey = .str key
  isOrigin : r.isOrigin = e.isOrigin
  propagate : r.propagate = e.propagate
  props : r.props.val = e.props.val

theorem Rekeyed.child (h : Rekeyed e key r) :
    child r = { child e with orderKey := some key } := by
  unfold Ordering.child edgeProp
  rw [h.orderKey, h.dst, h.label]
  rfl

theorem beside_rekeyed (e : ERow) (key : String) : List.Forall₂ EntryBeside (edgeRowContent e)
    (edgeContent .none e.propagate (isOriginVal e.isOrigin) (.str key) e.props.val) := by
  unfold edgeRowContent edgeContent
  refine forall₂_update (fun _ _ h => h.1) (List.forall₂_same.mpr fun _ _ => ⟨rfl, id⟩) ?_
  exact .cons ⟨rfl, fun _ => .inl rfl⟩ (.cons ⟨rfl, id⟩ (.cons ⟨rfl, id⟩ (.cons ⟨rfl, fun _ => texted_str key⟩ .nil)))

theorem Rekeyed.stored (h : Rekeyed e key r) (he : Stored e) : Stored r where
  src := h.src ▸ he.src
  dst := h.dst ▸ he.dst
  label := h.label ▸ he.label
  props := h.props ▸ he.props
  content := by
    have hb := he.content.beside (beside_rekeyed e key)
    unfold edgeRowContent
    rw [h.force, h.propagate, h.isOrigin, h.orderKey, h.props]
    exact hb

section Again

variable {db : Store} {k : EdgeKey} {e : ERow} (hs : EdgesSound db) (he : db.edge.lookup k = some e)
include hs he

theorem storable_again (hst : Stored e) (c root key : String) :
    EdgeSpec.Storable ⟨c, root, e.label, orderProps e key⟩ := by
  obtain ⟨hf, ho, hi, hp, hb⟩ := orderProps_get hs he key
  refine ⟨?_, ?_, ?_⟩
  · change ∃ t, (blobOf (orderProps e key)).dumps .plain = .ok t
    rw [hb]
    exact hst.props
  · intro name hname
    simp only [textColumns, List.mem_cons, List.not_mem_nil, or_false] at hname
    change ∃ v, bindText ((orderProps e key).get name) = .ok v
    rcases hname with rfl | rfl | rfl
    · exact ⟨_, by rw [hf]; rfl⟩
    · exact ⟨_, by rw [hp]; exact (hs.bound k e he).1⟩
    · exact ⟨_, by rw [ho]; rfl⟩
  · change Hashable (edgePropsContent (orderProps e key))
    unfold edgePropsContent
    rw [hf, ho, hi, hp, hb, normIsOrigin_isOriginVal (hs.flagged k e he)]
    exact hst.content.beside (beside_rekeyed e key)

theorem rekeyed_row {origin : String} {seq : ℤ} {leaf : ℕ} {row : ERow}
    (hrow : edgeRow ⟨c, root, e.label, orderProps e key⟩ origin seq leaf = .ok row) :
    Rekeyed e key (upsertEdge (some e) row) := by
  obtain ⟨hf, ho, hi, hp, hb⟩ := orderProps_get hs he key
  obtain ⟨hforce, hprop, hord, horigin, hprops⟩ := edgeRow_content hrow
  dsimp only at hforce hprop hord horigin hprops
  rw [hf] at hforce
  rw [hp, (hs.bound k e he).1] at hprop
  rw [ho] at hord
  rw [hi, normIsOrigin_isOriginVal (hs.flagged k e he)] at horigin
  rw [hb, hs.settled k e he] at hprops
  exact ⟨rfl, rfl, rfl, (Except.ok.inj hforce).symm, (Except.ok.inj hord).symm, horigin, (Except.ok.inj hprop).symm, hprops⟩

end Again

/-! ### The rewrite is the rewrite of the child edges -/

/-- Between transactions, with `k` sequence numbers left: every edge of the container can be read and stored again. -/
structure Ready (n : Node) (c : String) (k : ℕ) : Prop where
  idle : n.inTxn = false
  sound : EdgesSound n.db
  rows : ∀ e ∈ outRows n.db c, Stored e.2
  small : (outRows n.db c).length ≤ edgesOfLimit
  room : n.HasRoom k

/-- What the writes of a rewrite leave as it was: the documents, and which edges there are. -/
structure SameMembers (n n' : Node) : Prop where
  vertex : n'.db.vertex = n.db.vertex
  keys : ∀ key, n'.db.edge.lookup key = none ↔ n.db.edge.lookup key = none

theorem SameMembers.refl (n : Node) : SameMembers n n := ⟨rfl, fun _ => Iff.rfl⟩

theorem SameMembers.trans {a b d : Node} (h : SameMembers a b) (h' : SameMembers b d) : SameMembers a d :=
  ⟨h'.vertex.trans h.vertex, fun key => (h'.keys key).trans (h.keys key)⟩

theorem Ready.mono {j k : ℕ} (h : Ready n c k) (hjk : j ≤ k) : Ready n c j := by
  refine ⟨h.idle, h.sound, h.rows, h.small, h.room.1, ?_⟩
  have hr := h.room.2
  omega

theorem unpack_tuple {src dst label : String} (hs : src ≠ "") (hd : dst ≠ "") (hl : label ≠ "") (props : Doc) :
    unpack (.tuple (.str src) (.str dst) (.str label) props) = .ok ⟨src, dst, label, props⟩ := by
  unfold unpack unpackFields
  simp [hs, hd, hl]

/-- **One edge write**: it rewrites the child edge, and answers whether there was one. -/
theorem setEdgeOrderKey_step {k : ℕ} (h : Ready n c (k + 1)) (root key : String) :
    ∃ n', setEdgeOrderKey n c root key =
        .ok (n', (Mantle.setEdgeOrderKey root key (children n.db c)).isSome) ∧
      Ready n' c k ∧ SameMembers n n' ∧
      children n'.db c = (Mantle.setEdgeOrderKey root key (children n.db c)).getD (children n.db c) := by
  unfold setEdgeOrderKey
  rw [findMembership_eq h.small]
  cases hf : (outRows n.db c).find? fun e => e.2.dst = root with
  | none =>
    have habsent := setEdgeOrderKey_absent key hf
    refine ⟨n, ?_, h.mono (Nat.le_succ k), .refl n, ?_⟩
    · rw [children, habsent]
      rfl
    · rw [children, habsent]
      rfl
  | some x =>
    obtain ⟨ek, e⟩ := x
    have hmem := List.mem_of_find?_eq_some hf
    obtain ⟨he, hsrc⟩ := mem_outRows.mp hmem
    have hdst : e.dst = root := by simpa using List.find?_some hf
    have hst := h.rows _ hmem
    have hkey : edgeKey c root e.label = ek := by rw [h.sound.keyed ek e he, hsrc, hdst]
    have hu := unpack_tuple (hsrc ▸ hst.src) (hdst ▸ hst.dst) hst.label (orderProps e key)
    have hout : HashesOut n.db (edgeKey c root e.label) := by
      intro o ho
      rw [hkey, he] at ho
      cases ho
      exact hst.content
    obtain ⟨j, n', hadd, hadded⟩ := addEdge_goes h.idle hu (storable_again h.sound he hst c root key) hout h.room
    obtain ⟨seq, leaf, row, hrow, hw⟩ := hadded.written
    have hre := rekeyed_row h.sound he hrow
    have hedge : n'.db.edge = n.db.edge.insert ek (upsertEdge (some e) row) := by
      rw [hw.edge, hkey, he]
    have hrows := outRows_put he hsrc (hre.src.trans hsrc) hedge
    have hset := setEdgeOrderKey_putRow hre.child (outRows_keys n.db c) hf
    have hkeeps : EdgesSound n'.db :=
      ((keeps_addEdges edgesSound_rowRules.toEdgeRules _ 500 true n h.sound).ok hadd).1
    refine ⟨n', ?_, ⟨hadded.idle, hkeeps, ?_, ?_, hadded.room h.room⟩, ⟨hw.vertex, fun key' => ?_⟩, ?_⟩
    · rw [children, hset]
      refine congrArg Except.ok ?_
      change triedEdge _ n = _
      unfold triedEdge
      rw [hadd]
      rfl
    · rw [hrows]
      intro y hy
      obtain ⟨z, hz, rfl⟩ := List.mem_map.mp hy
      split_ifs
      · exact hre.stored hst
      · exact h.rows z hz
    · rw [hrows, putRow, List.length_map]
      exact h.small
    · rw [hedge, Table.lookup_insert_of]
      split_ifs with hk
      · rw [hk, he]
        simp
      · exact Iff.rfl
    · rw [children, children, hset, hrows]
      rfl

/-- **The store's rewrite refines the rewrite of the child edges**, for any sequence of roots. -/
theorem reorderFrom_refines (c : String) (j : ℕ) : ∀ (roots : List String) (n : Node) (prev : Option String)
    (updated : ℕ), Ready n c (roots.length + j) → ∃ n',
      reorderFrom c n prev updated roots =
        (n', .ok (updated + (Mantle.reorderFrom prev roots (children n.db c)).2)) ∧
      Ready n' c j ∧ SameMembers n n' ∧ children n'.db c = (Mantle.reorderFrom prev roots (children n.db c)).1
  | [], n, prev, updated, h => ⟨n, rfl, by simpa using h, .refl n, rfl⟩
  | root :: rest, n, prev, updated, h => by
    have h' : Ready n c (rest.length + j + 1) := h.mono (by rw [List.length_cons]; omega)
    obtain ⟨n₁, hset, h₁, hsame₁, hch₁⟩ := setEdgeOrderKey_step h' root (afterKey prev)
    obtain ⟨n₂, hrun, h₂, hsame₂, hch₂⟩ := reorderFrom_refines c j rest n₁ (some (afterKey prev))
      (if (Mantle.setEdgeOrderKey root (afterKey prev) (children n.db c)).isSome then updated + 1 else updated) h₁
    refine ⟨n₂, ?_, h₂, hsame₁.trans hsame₂, ?_⟩
    · unfold reorderFrom Mantle.reorderFrom
      rw [hset]
      dsimp only
      rw [hrun, hch₁]
      cases Mantle.setEdgeOrderKey root (afterKey prev) (children n.db c) with
      | none => rfl
      | some ch =>
        simp only [Option.isSome_some, if_true, Option.getD_some]
        rw [Nat.add_assoc, Nat.add_comm 1]
    · rw [hch₂, hch₁]
      conv_rhs => unfold Mantle.reorderFrom
      cases Mantle.setEdgeOrderKey root (afterKey prev) (children n.db c) <;> rfl

/-! ### What the readers make of an order -/

instance : Std.Total listedLe where
  total a b := by
    unfold listedLe
    rcases lt_trichotomy a.orderKey.isNone b.orderKey.isNone with h | h | h
    · exact .inl (.inl h)
    · rcases le_total (a.orderKey.getD "") (b.orderKey.getD "") with h' | h'
      · exact .inl (.inr ⟨h, h'⟩)
      · exact .inr (.inr ⟨h.symm, h'⟩)
    · exact .inr (.inl h)

instance : IsTrans ListedMember listedLe where
  trans a b c := by
    rintro (hab | ⟨hab, hab'⟩) (hbc | ⟨hbc, hbc'⟩)
    · exact .inl (hab.trans hbc)
    · exact .inl (hbc ▸ hab)
    · exact .inl (hab ▸ hbc)
    · exact .inr ⟨hab.trans hbc, hab'.trans hbc'⟩

section Readers

variable {db : Store} {c : String} {p : List String} (ha : Arranged (children db c) p)
  (hlen : (outRows db c).length ≤ edgesOfLimit)
include ha hlen

theorem orderFingerprint_arranged (digest : String → ℕ) :
    orderFingerprint digest db c = .ok (digest ("\n".intercalate p)) := by
  unfold orderFingerprint
  rw [membershipEdges_eq, if_neg (by omega)]
  have hchildren : ((outRows db c).map Prod.snd).map child = children db c := List.map_map ..
  change Except.ok (digest ("\n".intercalate (orderedRoots (((outRows db c).map Prod.snd).map child)))) = _
  rw [hchildren, ha.orderedRoots]

theorem listing_arranged (O : Opening) (includeArchived : Bool) : ∃ rows,
    O.listCollectionArtifacts includeArchived db c = .ok rows ∧
      rows.map ListedMember.doc = p.filterMap fun root => (shownVersion includeArchived db c root).map O.shownDoc := by
  obtain ⟨cs, keys, hcs, rfl, hkeys, hinc, -⟩ := ha
  have hchildren : ((outRows db c).map Prod.snd).map child = children db c := List.map_map ..
  rw [← hchildren] at hcs
  obtain ⟨es, hes, rfl⟩ := exists_perm_map hcs
  -- the rows in the order, as far as they are shown
  let show? : ERow → Option ListedMember := fun e => (shownVersion includeArchived db c e.dst).map (O.listed e)
  have hkey : ∀ {e : ERow} {m : ListedMember}, show? e = some m → m.orderKey = (child e).orderKey := by
    intro e m hm
    obtain ⟨d, -, rfl⟩ := Option.map_eq_some_iff.mp hm
    rfl
  have hsorted : (es.filterMap show?).Pairwise fun a b => listedLe a b ∧ ¬listedLe b a := by
    have hlt : es.Pairwise fun a b => ∃ x y, (child a).orderKey = some x ∧ (child b).orderKey = some y ∧ x < y := by
      have hmap : ((es.map child).map ChildEdge.orderKey).Pairwise fun a b => ∃ x y, a = some x ∧ b = some y ∧ x < y := by
        rw [hkeys]
        exact hinc.map some fun x y hxy => ⟨x, y, rfl, rfl, hxy⟩
      rw [List.map_map, List.pairwise_map] at hmap
      exact hmap
    refine List.Pairwise.filterMap show? (fun a b hab m hm m' hm' => ?_) hlt
    obtain ⟨x, y, hx, hy, hxy⟩ := hab
    unfold listedLe
    rw [hkey hm, hkey hm', hx, hy]
    refine ⟨.inr ⟨rfl, hxy.le⟩, ?_⟩
    rintro (hlt | ⟨-, hle⟩)
    · exact absurd hlt (lt_irrefl _)
    · exact absurd hle (not_le.mpr hxy)
  refine ⟨es.filterMap show?, ?_, ?_⟩
  · unfold Opening.listCollectionArtifacts
    rw [membershipEdges_eq, if_neg (by omega)]
    exact congrArg Except.ok (insertionSort_eq_of_strict (hes.filterMap show?) hsorted)
  · rw [List.map_filterMap, List.map_map, List.filterMap_map]
    refine List.filterMap_congr fun e _ => ?_
    change ((shownVersion includeArchived db c e.dst).map (O.listed e)).map ListedMember.doc = _
    rw [Option.map_map]
    rfl

end Readers

theorem getLastOrderKey_eq (hlen : (outRows db c).length ≤ edgesOfLimit) :
    getLastOrderKey db c = .ok (((children db c).filterMap ChildEdge.orderKey).filter (· ≠ "")).max? := by
  have hchildren : (children db c).filterMap ChildEdge.orderKey =
      ((outRows db c).map Prod.snd).filterMap fun r => (edgeProp r r.orderKey "order_key").asStr := by
    rw [children, List.filterMap_map, List.filterMap_map]
    rfl
  unfold getLastOrderKey
  rw [membershipEdges_eq, if_neg (by omega), hchildren]
  rfl

/-! ### A new member -/

theorem storedLabel_ne_empty (S : Sealing) (relationship : Option String) : S.storedLabel relationship ≠ "" := by
  unfold Sealing.storedLabel
  cases relationship with
  | none => exact (by decide : containsLabel ≠ "")
  | some r =>
    dsimp only
    split_ifs with hr hsys
    · exact (by decide : containsLabel ≠ "")
    · exact hr
    · unfold Sealing.labelToken tokenMark
      intro h
      have := congrArg String.toList h
      rw [String.toList_append] at this
      cases this

theorem texts_write {st : JsonStyle} (xs : List String) : ∃ t, (Val.list (xs.map .str)).dumps st = .ok t := by
  have hall : ∀ v ∈ xs.map Val.str, ∃ t, v.dumps st = .ok t := by
    intro v hv
    obtain ⟨s, -, rfl⟩ := List.mem_map.mp hv
    exact ⟨_, rfl⟩
  obtain ⟨ys, hys⟩ := Json.dumpsList_writes hall
  exact ⟨_, by rw [Val.dumps, hys]; rfl⟩

def newBlob (S : Sealing) (rootId : String) (relationship : Option String) : Doc :=
  ("root_id", .str rootId) :: S.labelProps relationship

theorem newBlob_writes {st : JsonStyle} (S : Sealing) (x : String) (relationship : Option String) :
    ∀ e ∈ newBlob S x relationship, ∃ t, e.2.dumps st = .ok t := by
  intro e he
  rcases List.mem_cons.mp he with rfl | he
  · exact ⟨_, rfl⟩
  · unfold Sealing.labelProps at he
    cases relationship with
    | none => cases he
    | some r =>
      dsimp only at he
      split_ifs at he
      · cases he
      · rcases List.mem_cons.mp he with rfl | he
        · exact ⟨_, rfl⟩
        · obtain rfl := List.mem_singleton.mp he
          have hmap : ∀ (f : ℕ → String) (is : List ℕ), is.map (fun i => Val.str (f i)) = (is.map f).map .str :=
            fun f is => (List.map_map ..).symm
          dsimp only
          rw [hmap]
          exact texts_write _

theorem newProps_get (S : Sealing) (key x : String) (origin : Bool) (propagate : Option (List String))
    (relationship : Option String) :
    (S.newProps key x origin propagate relationship).get "force" = .none ∧
      (S.newProps key x origin propagate relationship).get "order_key" = .str key ∧
      (S.newProps key x origin propagate relationship).get "is_origin" = .bool origin ∧
      (S.newProps key x origin propagate relationship).get "propagate" = serPropagate propagate ∧
      blobOf (S.newProps key x origin propagate relationship) = newBlob S x relationship := by
  unfold Sealing.newProps newBlob
  cases relationship with
  | none =>
    refine ⟨rfl, rfl, rfl, rfl, ?_⟩
    simp [blobOf, Doc.without, promoted, isPrivate, Sealing.labelProps]
  | some r =>
    by_cases hr : r = "" ∨ r ∈ systemLabels
    · rw [show S.labelProps (some r) = [] from if_pos hr]
      refine ⟨rfl, rfl, rfl, rfl, ?_⟩
      simp [blobOf, Doc.without, promoted, isPrivate]
    · rw [show S.labelProps (some r) = _ from if_neg hr]
      refine ⟨rfl, rfl, rfl, rfl, ?_⟩
      simp [blobOf, Doc.without, promoted, isPrivate]

theorem bindText_serPropagate (propagate : Option (List String)) :
    bindText (serPropagate propagate) = .ok (serPropagate propagate) := by
  cases propagate <;> rfl

theorem mem_docUpdate : ∀ {blob base : Doc} {e : String × Val}, e ∈ base.update blob → e ∈ base ∨ e ∈ blob
  | [], _, _, h => .inl h
  | x :: blob, base, e, h => by
    rcases mem_docUpdate (show e ∈ Doc.update (base.set x.1 x.2) blob from h) with h | h
    · rcases Doc.mem_set h with rfl | h
      · exact .inr (List.mem_cons_self ..)
      · exact .inl h
    · exact .inr (List.mem_cons_of_mem x h)

theorem storable_new (S : Sealing) (c x label key : String) (origin : Bool) (propagate : Option (List String))
    (relationship : Option String) :
    EdgeSpec.Storable ⟨c, x, label, S.newProps key x origin propagate relationship⟩ := by
  obtain ⟨hf, ho, hi, hp, hb⟩ := newProps_get S key x origin propagate relationship
  refine ⟨?_, ?_, ?_⟩
  · change ∃ t, (blobOf (S.newProps key x origin propagate relationship)).dumps .plain = .ok t
    rw [hb]
    exact dumps_writes (newBlob_writes S x relationship)
  · intro name hname
    simp only [textColumns, List.mem_cons, List.not_mem_nil, or_false] at hname
    change ∃ v, bindText ((S.newProps key x origin propagate relationship).get name) = .ok v
    rcases hname with rfl | rfl | rfl
    · exact ⟨_, by rw [hf]; rfl⟩
    · exact ⟨_, by rw [hp]; exact bindText_serPropagate propagate⟩
    · exact ⟨_, by rw [ho]; rfl⟩
  · change Hashable (edgePropsContent (S.newProps key x origin propagate relationship))
    unfold edgePropsContent edgeContent
    rw [hf, ho, hi, hp, hb, hashable_iff]
    intro e he _
    rcases mem_docUpdate he with he | he
    · simp only [List.mem_cons, List.not_mem_nil, or_false] at he
      rcases he with rfl | rfl | rfl | rfl
      · exact .inl rfl
      · cases propagate with
        | none => exact .inl rfl
        | some mask => exact texted_str _
      · exact texted_isOrigin (normIsOrigin (.bool origin))
      · exact texted_str _
    · exact .inr (newBlob_writes S x relationship e he)

theorem outRows_new {key : EdgeKey} (hno : db.edge.lookup key = none) (hr : r.src = c)
    (hdb : db'.edge = db.edge.insert key r) : (outRows db' c).Perm ((key, r) :: outRows db c) := by
  have hnd : ∀ db : Store, (outRows db c).Nodup := fun db => (outRows_keys db c).imp fun hab heq => (heq ▸ hab).false
  have hnew : (key, r) ∉ outRows db c := by
    intro h
    have := (mem_outRows.mp h).1
    rw [hno] at this
    cases this
  refine (List.perm_ext_iff_of_nodup (hnd db') (List.nodup_cons.mpr ⟨hnew, hnd db⟩)).mpr ?_
  rintro ⟨key', e⟩
  rw [mem_outRows, hdb, Table.lookup_insert_of, List.mem_cons, mem_outRows]
  by_cases hk : key' = key
  · subst hk
    rw [if_pos rfl, hno]
    constructor
    · rintro ⟨he, -⟩
      cases he
      exact .inl rfl
    · rintro (he | ⟨he, -⟩)
      · cases he
        exact ⟨rfl, hr⟩
      · cases he
  · rw [if_neg hk]
    exact ⟨.inr, fun h => h.resolve_left fun he => hk (congrArg Prod.fst he)⟩

theorem addArtifactToCollection_last {p : List String} (h : Ready n c 1) (ha : Arranged (children n.db c) p)
    (hlt : (outRows n.db c).length < edgesOfLimit) (S : Sealing) {x : String} (hc : c ≠ "") (hx : x ≠ "")
    (origin : Bool) (propagate : Option (List String)) (relationship : Option String)
    (hno : n.db.edge.lookup (edgeKey c x (S.storedLabel relationship)) = none) :
    ∃ n', S.addArtifactToCollection n c x none origin propagate relationship = .ok (n', true) ∧
      n'.db.vertex = n.db.vertex ∧ (outRows n'.db c).length ≤ edgesOfLimit ∧
      Arranged (children n'.db c) (p ++ [x]) := by
  generalize hk : afterKey (((children n.db c).filterMap ChildEdge.orderKey).filter (· ≠ "")).max? = key
  have hu := unpack_tuple hc hx (storedLabel_ne_empty S relationship) (S.newProps key x origin propagate relationship)
  have hout : HashesOut n.db (edgeKey c x (S.storedLabel relationship)) := by
    intro o ho
    rw [hno] at ho
    cases ho
  obtain ⟨j, n', hadd, hadded⟩ := addEdge_goes h.idle hu (storable_new S c x _ key origin propagate relationship) hout h.room
  obtain ⟨seq, leaf, row, hrow, hw⟩ := hadded.written
  dsimp only at hw
  have hedge : n'.db.edge = n.db.edge.insert (edgeKey c x (S.storedLabel relationship)) row := by
    rw [hw.edge, hno]
    rfl
  have hsrc : row.src = c := edgeRow_src hrow
  have hrows := outRows_new hno hsrc hedge
  obtain ⟨-, hdst⟩ := edgeRow_endpoints hrow
  have hord : row.orderKey = .str key := by
    obtain ⟨-, -, hord, -, -⟩ := edgeRow_content hrow
    dsimp only at hord
    rw [(newProps_get S key x origin propagate relationship).2.1] at hord
    exact (Except.ok.inj hord).symm
  have hchild : (child row).orderKey = some key := by
    unfold child edgeProp
    rw [hord]
    rfl
  refine ⟨n', ?_, hw.vertex, ?_, ?_⟩
  · unfold Sealing.addArtifactToCollection
    dsimp only
    rw [getLastOrderKey_eq h.small]
    change Except.ok (triedEdge (.tuple (.str c) (.str x) (.str (S.storedLabel relationship))
      (S.newProps (afterKey _) x origin propagate relationship)) n) = _
    rw [hk]
    unfold triedEdge
    rw [hadd]
  · rw [hrows.length_eq, List.length_cons]
    omega
  · have hplace := ha.place (c := child row) rfl (hchild.trans (congrArg some hk.symm))
    rw [child_root, hdst] at hplace
    exact hplace.of_perm (hrows.map fun e : EdgeKey × ERow => child e.2).symm

/-! ### Reordering -/

/-- The collection is listed in the order `p`, and its fingerprint is that of `p`. -/
structure InOrder (O : Opening) (digest : String → ℕ) (c : String) (shown : String → Option Doc) (p : List String)
    (db : Store) : Prop where
  fingerprint : orderFingerprint digest db c = .ok (digest ("\n".intercalate p))
  listed : ∃ rows, O.listCollectionArtifacts false db c = .ok rows ∧
    rows.map ListedMember.doc = p.filterMap shown

/-- What a member shows as long as it is live. -/
def Opening.current (O : Opening) (db : Store) (c root : String) : Option Doc :=
  (shownVersion false db c root).map O.shownDoc

/-- What a rewrite along `p` owes: it reports every edge, and the readers see the order. -/
structure Reordered (O : Opening) (digest : String → ℕ) (c : String) (p : List String) (n : Node)
    (out : Node × Except AccessErr ℕ) : Prop where
  reports : out.2 = .ok p.length
  order : InOrder O digest c (O.current n.db c) p out.1.db

/-- What a new member owes after it. -/
def PlacesLast (O : Opening) (digest : String → ℕ) (c : String) (p : List String) (n n' : Node) : Prop :=
  ∀ (S : Sealing) (x : String) (origin : Bool) (propagate : Option (List String)) (relationship : Option String),
    c ≠ "" → x ≠ "" → n.db.edge.lookup (edgeKey c x (S.storedLabel relationship)) = none →
      ∃ n'', S.addArtifactToCollection n' c x none origin propagate relationship = .ok (n'', true) ∧
        InOrder O digest c (O.current n.db c) (p ++ [x]) n''.db

theorem shownVersion_congr (h : db'.vertex = db.vertex) (includeArchived : Bool) (c root : String) :
    shownVersion includeArchived db' c root = shownVersion includeArchived db c root := by
  unfold shownVersion versionsOf
  rw [h]

theorem inOrder_of_arranged {O : Opening} {digest : String → ℕ} {p : List String} (hv : db'.vertex = db.vertex)
    (ha : Arranged (children db' c) p) (hlen : (outRows db' c).length ≤ edgesOfLimit) :
    InOrder O digest c (O.current db c) p db' := by
  refine ⟨orderFingerprint_arranged ha hlen digest, ?_⟩
  obtain ⟨rows, hrows, hdocs⟩ := listing_arranged ha hlen O false
  refine ⟨rows, hrows, hdocs.trans (List.filterMap_congr fun root _ => ?_)⟩
  unfold Opening.current
  rw [shownVersion_congr hv]

/-- **Reordering is faithful** on a collection that one read returns, while the counter has numbers left. -/
theorem reorder_faithful (O : Opening) (digest : String → ℕ) (n : Node) (c : String) (p : List String)
    (hready : Ready n c p.length) (hone : (memberRoots n.db c).Nodup) (hp : p.Perm (memberRoots n.db c)) :
    Reordered O digest c p n (reorderCollectionArtifacts n c p) ∧
      ((outRows n.db c).length < edgesOfLimit → n.HasRoom (p.length + 1) →
        PlacesLast O digest c p n (reorderCollectionArtifacts n c p).1) := by
  have hroots : (children n.db c).map ChildEdge.root = memberRoots n.db c := List.map_map ..
  rw [← hroots] at hone hp
  obtain ⟨hcount, harr⟩ := reorder_arranged hone hp
  have hout : ∀ {n' : Node}, children n'.db c = (Mantle.reorderFrom none p (children n.db c)).1 →
      Arranged (children n'.db c) p := fun h => h ▸ harr
  constructor
  · obtain ⟨n', hrun, hn', hsame, hch⟩ := reorderFrom_refines c 0 p n none 0 hready
    unfold reorderCollectionArtifacts
    rw [hrun]
    refine ⟨?_, inOrder_of_arranged hsame.vertex (hout hch) hn'.small⟩
    dsimp only
    rw [Nat.zero_add]
    exact congrArg Except.ok hcount
  · intro hlt hroom S x origin propagate relationship hc hx hno
    obtain ⟨n', hrun, hn', hsame, hch⟩ := reorderFrom_refines c 1 p n none 0 { hready with room := hroom }
    unfold reorderCollectionArtifacts
    rw [hrun]
    have hlen : (outRows n'.db c).length < edgesOfLimit := by
      have h' := (hout hch).length_eq
      have h₀ := hp.length_eq
      unfold children at h' h₀
      rw [List.length_map] at h'
      rw [List.length_map, List.length_map] at h₀
      omega
    obtain ⟨n'', hadd, hv, hsmall, ha⟩ := addArtifactToCollection_last hn' (hout hch) hlen S hc hx origin propagate
      relationship ((hsame.keys _).mpr hno)
    exact ⟨n'', hadd, inOrder_of_arranged (hv.trans hsame.vertex) ha hsmall⟩

/-! ### A collection of two -/

def pairNode (last : ℤ) : Node :=
  hereNode.run
    [.addEdges [.tuple (.str "c") (.str "a") (.str "contains") [("order_key", .str "V")],
       .tuple (.str "c") (.str "b") (.str "contains") [("order_key", .str "U")]] 500 true,
     .addEdges [.tuple (.str "d") (.str "e") (.str "link") [("_origin", .str "here"), ("_seq", .int last)]] 500 false]

def storedB (e : ERow) : Bool :=
  decide (e.src ≠ "") && decide (e.dst ≠ "") && decide (e.label ≠ "") && (e.props.val.dumps .plain).isOk &&
    (canonContent (edgeRowContent e)).isOk

theorem stored_of_check (h : storedB e = true) : Stored e := by
  have hok : ∀ {x : Except PyErr String}, x.isOk = true → ∃ t, x = .ok t := by
    intro x hx
    cases x with
    | error _ => cases hx
    | ok t => exact ⟨t, rfl⟩
  unfold storedB at h
  simp only [Bool.and_eq_true, decide_eq_true_eq] at h
  obtain ⟨⟨⟨⟨hs, hd⟩, hl⟩, hp⟩, hc⟩ := h
  exact ⟨hs, hd, hl, hok hp, hok hc⟩

theorem order_not_applied :
    (¬∀ (O : Opening) (digest : String → ℕ) (n : Node) (c : String) (p : List String), n.inTxn = false →
        EdgesSound n.db → (∀ e ∈ outRows n.db c, Stored e.2) → (memberRoots n.db c).Nodup →
          p.Perm (memberRoots n.db c) → Reordered O digest c p n (reorderCollectionArtifacts n c p)) ∧
      ∀ (n : Node) (c : String) (p : List String), edgesOfLimit < (outRows n.db c).length → p ≠ [] →
        (reorderCollectionArtifacts n c p).2 = .error .edgesTruncated := by
  constructor
  · intro h
    obtain ⟨hidle, hrows, hone, hp, hnone⟩ : (pairNode (2 ^ 63 - 1)).inTxn = false ∧
        ((outRows (pairNode (2 ^ 63 - 1)).db "c").all fun e => storedB e.2) = true ∧
          (memberRoots (pairNode (2 ^ 63 - 1)).db "c").Nodup ∧ ["a", "b"].Perm (memberRoots (pairNode (2 ^ 63 - 1)).db "c") ∧
            (reorderCollectionArtifacts (pairNode (2 ^ 63 - 1)) "c" ["a", "b"]).2.toOption = some 0 := by decide +kernel
    have hcall := (h ⟨id, fun _ => none⟩ String.length (pairNode (2 ^ 63 - 1)) "c" ["a", "b"] hidle (edgesSound_run _ _ _)
      (fun e he => stored_of_check (List.all_eq_true.mp hrows e he)) hone hp).reports
    rw [hcall] at hnone
    cases hnone
  · intro n c p hlen hp
    obtain ⟨root, rest, rfl⟩ := List.exists_cons_of_ne_nil hp
    unfold reorderCollectionArtifacts reorderFrom setEdgeOrderKey findMembership
    rw [membershipEdges_eq, if_pos hlen]
    rfl

theorem reorder_faithful_pair :
    Reordered ⟨id, fun _ => none⟩ String.length "c" ["a", "b"] (pairNode 7)
        (reorderCollectionArtifacts (pairNode 7) "c" ["a", "b"]) ∧
      PlacesLast ⟨id, fun _ => none⟩ String.length "c" ["a", "b"] (pairNode 7)
        (reorderCollectionArtifacts (pairNode 7) "c" ["a", "b"]).1 := by
  obtain ⟨hidle, hrows, hfew, hlow, hhigh, hone, hp⟩ : (pairNode 7).inTxn = false ∧
      ((outRows (pairNode 7).db "c").all fun e => storedB e.2) = true ∧ (outRows (pairNode 7).db "c").length < edgesOfLimit ∧
        intMin ≤ (pairNode 7).db.load (pairNode 7).origin ∧ (pairNode 7).db.load (pairNode 7).origin + 3 ≤ intMax ∧
          (memberRoots (pairNode 7).db "c").Nodup ∧ ["a", "b"].Perm (memberRoots (pairNode 7).db "c") := by decide +kernel
  have hready : Ready (pairNode 7) "c" 3 := ⟨hidle, edgesSound_run _ _ _, fun e he =>
    stored_of_check (List.all_eq_true.mp hrows e he), hfew.le, hlow, hhigh⟩
  have h := reorder_faithful ⟨id, fun _ => none⟩ String.length (pairNode 7) "c" ["a", "b"] (hready.mono (by decide)) hone hp
  exact ⟨h.1, h.2 hfew hready.room⟩

end Mantle.Ordering
