import Mathlib.Data.String.Basic
import Mantle.Base.Paging
import Mantle.Db.Merkle

/-!
# Mantle.Db.Reshard — the leaf count follows the corpus (`maybe_reshard`, `reshard`)

A reshard stamps every row anew and moves the two stores to the new count.  The graph face `_place` writes through has
a count of its own, and stays behind.
-/

namespace Mantle

open Paging Relation Tx

/-! ### The derived count -/

/-- `round(log2(n) / 2)`; an odd power of two is halfway, and the even neighbour is taken. -/
def naturalExponent (n : ℕ) : ℕ :=
  let l := Nat.log2 n
  if l % 2 = 0 then l / 2
  else if n = 2 ^ l then (if (l - 1) / 2 % 2 = 0 then (l - 1) / 2 else (l + 1) / 2)
  else (l + 1) / 2

def naturalLeaves (n : ℤ) : ℕ+ := ⟨2 ^ naturalExponent (max 1 n).toNat, Nat.two_pow_pos _⟩

example : [1, 2, 3, 8, 9, 32, 33, 1000].map (fun n => (naturalLeaves n : ℕ)) =
    [1, 1, 2, 4, 4, 4, 8, 32] := by decide

/-! ### Restamping -/

def restampBatch : ℕ := 5000

/-- A transaction for each page of keys.  Every full page moves the cursor on, so a fuel of one more than the number of
keys never runs out. -/
def restampLoop {κ : Type} [LinearOrder κ] (keys : Store → List κ) (stamp : Store → κ → Store) :
    ℕ → Option κ → DbM PUnit
  | 0, _ => pure ⟨⟩
  | fuel + 1, after => do
    let ks ← write do
      let ks ← readDb fun db => page (keys db) after restampBatch
      onDb fun db => ks.foldl stamp db
      pure ks
    match ks.getLast? with
    | none => pure ⟨⟩
    | some last => if ks.length < restampBatch then pure ⟨⟩ else restampLoop keys stamp fuel (some last)

def stampVertex (leaves : ℕ+) (db : Store) (id : String) : Store :=
  { db with vertex := db.vertex.adjust (fun id r => { r with leaf := leafOf id leaves }) id }

def stampEdgeLeaf (leaves : ℕ+) (db : Store) (key : EdgeKey) : Store :=
  { db with edge := db.edge.adjust (fun key r => { r with leaf := leafOf (keyHex key) leaves }) key }

def restampVertices (leaves : ℕ+) : DbM PUnit := do
  let n ← get
  restampLoop (fun db => db.vertex.sortedKeys) (stampVertex leaves) (n.db.vertex.sortedKeys.length + 1) none

def restampEdges (leaves : ℕ+) : DbM PUnit := do
  let n ← get
  restampLoop (fun db => db.edge.sortedKeys) (stampEdgeLeaf leaves) (n.db.edge.sortedKeys.length + 1) none

/-! ### Resharding -/

/-- The rows the resolution is derived from. -/
def corpusCount (db : Store) (graph : Bool) : ℤ :=
  db.counterOf cVertexTotal + if graph then db.counterOf cEdgeTotal else 0

theorem leaves_pos (t : ℤ) : 0 < max 1 t.toNat := by omega

def reshardTarget (db : Store) (graph : Bool) (target : Option ℤ) : ℕ+ :=
  match target with
  | none => naturalLeaves (corpusCount db graph)
  | some t => if t = 0 then naturalLeaves (corpusCount db graph) else ⟨max 1 t.toNat, leaves_pos t⟩

/-- `reshard`; whether it moved.  `graph` says whether the graph store was passed.  The recorded count in
`meta` is read only when a store is opened. -/
def reshard (graph : Bool) (target : Option ℤ) : DbM Bool := do
  let n ← get
  let tgt := reshardTarget n.db graph target
  if tgt = n.leaves then pure false
  else do
    restampVertices tgt
    if graph then restampEdges tgt else pure ⟨⟩
    modify fun n => { n with leaves := tgt, graphLeaves := if graph then tgt else n.graphLeaves }
    let _ ← rebuildMerkle
    pure true

def maybeReshard (graph : Bool) : DbM Bool := do
  let n ← get
  if naturalLeaves (corpusCount n.db graph) = n.leaves then pure false else reshard graph none

/-! ### What a restamp does -/

section Loop

variable {κ : Type} [LinearOrder κ] {keys : Store → List κ} {stamp : Store → κ → Store}

theorem restampBatch_ok {n : Node} (hn : n.inTxn = false) (after : Option κ) :
    (write do
      let ks ← readDb fun db => page (keys db) after restampBatch
      onDb fun db => ks.foldl stamp db
      pure ks : DbM (List κ)) n =
    .ok (page (keys n.db) after restampBatch)
      { n with db := (page (keys n.db) after restampBatch).foldl stamp n.db, cache := none,
               dirty := false } := by
  obtain ⟨origin, db, cache, dirty, inTxn, leaves, graphLeaves, face, unplaced⟩ := n
  cases (show inTxn = false from hn)
  rw [write_own rfl]
  rfl

/-- **A restamp stamps every key beyond its cursor.**  `J ks db` says that the keys `ks` are stamped in `db`. -/
theorem restampLoop_ok {J : List κ → Store → Prop} {all : List κ} (hsorted : all.Pairwise (· < ·))
    (hkeys : ∀ ks db, J ks db → keys db = all)
    (hstamp : ∀ ks db k, k ∈ all → J ks db → J (ks ++ [k]) (stamp db k)) :
    ∀ (fuel : ℕ) (after : Option κ) (ks : List κ) (n : Node), n.inTxn = false → J ks n.db →
      (beyond all after).length < fuel →
      ∃ db, restampLoop keys stamp fuel after n = .ok ⟨⟩ { n with db := db, cache := none, dirty := false } ∧
        J (ks ++ beyond all after) db
  | 0, _, _, _, _, _, hfuel => absurd hfuel (Nat.not_lt_zero _)
  | fuel + 1, after, ks, n, hn, hJ, hfuel => by
    have hfold : ∀ (page ks : List κ) (db : Store), (∀ k ∈ page, k ∈ all) → J ks db →
        J (ks ++ page) (page.foldl stamp db) := by
      intro page
      induction page with
      | nil => exact fun ks db _ h => by simpa using h
      | cons k page ih =>
        intro ks db hmem h
        have := ih (ks ++ [k]) (stamp db k) (fun k' hk' => hmem k' (by simp [hk']))
          (hstamp ks db k (hmem k (by simp)) h)
        simpa using this
    have hmem : ∀ k ∈ page all after restampBatch, k ∈ all := fun k hk =>
      (beyond_sublist all after).subset (List.mem_of_mem_take hk)
    have hJ' := hfold (page all after restampBatch) ks n.db hmem hJ
    have hbatch := @restampBatch_ok κ _ keys stamp n hn after
    rw [hkeys ks n.db hJ] at hbatch
    rw [restampLoop, bind_of_ok hbatch]
    cases hlast : (page all after restampBatch).getLast? with
    | none =>
      have hnil : page all after restampBatch = [] := List.getLast?_eq_none_iff.mp hlast
      have hshort : (page all after restampBatch).length < restampBatch := by
        rw [hnil]
        exact Nat.zero_lt_succ _
      rw [page_eq_of_short hshort] at hJ' ⊢
      exact ⟨_, rfl, hJ'⟩
    | some last =>
      dsimp only
      by_cases hshort : (page all after restampBatch).length < restampBatch
      · rw [if_pos hshort]
        rw [page_eq_of_short hshort] at hJ' ⊢
        exact ⟨_, rfl, hJ'⟩
      · rw [if_neg hshort]
        have hless := beyond_last_length hsorted hlast (show 0 < restampBatch by decide)
        obtain ⟨db, hdb, hJdb⟩ := restampLoop_ok hsorted hkeys hstamp fuel (some last) _
          { n with db := (page all after restampBatch).foldl stamp n.db, cache := none, dirty := false }
          hn hJ' (by omega)
        refine ⟨db, hdb, ?_⟩
        rw [List.append_assoc, page_append_beyond hsorted hlast] at hJdb
        exact hJdb

end Loop

section Restamp

variable {κ ρ : Type} [LinearOrder κ] {tbl : Store → Table κ ρ} {put : Store → Table κ ρ → Store}

theorem restamp_ok {f : κ → ρ → ρ} (hf : ∀ k r, f k (f k r) = f k r)
    (hget : ∀ db t, tbl (put db t) = t) (hput : ∀ db t t', put (put db t) t' = put db t')
    (hself : ∀ db, put db (tbl db) = db) {n : Node} (hn : n.inTxn = false) :
    ∃ t, restampLoop (fun db => (tbl db).sortedKeys) (fun db k => put db ((tbl db).adjust f k))
        ((tbl n.db).sortedKeys.length + 1) none n =
          .ok ⟨⟩ { n with db := put n.db t, cache := none, dirty := false } ∧
      ∀ k, t.lookup k = ((tbl n.db).lookup k).map (f k) := by
  -- the keys in `ks` are stamped, the others as they were
  let J : List κ → Store → Prop := fun ks db => ∃ t, db = put n.db t ∧
    ∀ k, t.lookup k = ((tbl n.db).lookup k).map fun r => if k ∈ ks then f k r else r
  have hkeys : ∀ ks db, J ks db → (tbl db).sortedKeys = (tbl n.db).sortedKeys := by
    rintro ks db ⟨t, rfl, ht⟩
    rw [hget]
    refine Table.sortedKeys_congr ?_
    intro k
    rw [ht k, Option.isSome_map]
  have hstamp : ∀ ks db k, k ∈ (tbl n.db).sortedKeys → J ks db →
      J (ks ++ [k]) (put db ((tbl db).adjust f k)) := by
    rintro ks db k - ⟨t, rfl, ht⟩
    refine ⟨t.adjust f k, by rw [hget, hput], ?_⟩
    intro k'
    rw [Table.lookup_adjust, ht k', Option.map_map]
    congr 1
    funext r
    by_cases hk : k' = k
    · by_cases hm : k ∈ ks <;> simp [hk, hm, hf]
    · simp [hk]
  have hsorted : (tbl n.db).sortedKeys.Pairwise (· < ·) := Table.sorted_keys _
  have hstart : J [] n.db := ⟨tbl n.db, (hself n.db).symm, by simp⟩
  obtain ⟨db, hrun, t, rfl, ht⟩ := restampLoop_ok hsorted hkeys hstamp
    ((tbl n.db).sortedKeys.length + 1) none [] n hn hstart (Nat.lt_succ_self _)
  refine ⟨t, hrun, ?_⟩
  intro k
  rw [ht k]
  cases hk : (tbl n.db).lookup k with
  | none => rfl
  | some r =>
    have hmem : k ∈ (tbl n.db).sortedKeys := Table.mem_sortedKeys.mpr (by rw [hk]; rfl)
    simp [beyond, hmem]

end Restamp

variable {n : Node}

theorem restampVertices_ok (L : ℕ+) (hn : n.inTxn = false) :
    ∃ t, restampVertices L n =
        .ok ⟨⟩ { n with db := { n.db with vertex := t }, cache := none, dirty := false } ∧
      ∀ id, t.lookup id = (n.db.vertex.lookup id).map fun r => { r with leaf := leafOf id L } :=
  @restamp_ok _ _ _ (fun db => db.vertex) (fun db t => { db with vertex := t })
    (fun id r => { r with leaf := leafOf id L }) (fun _ _ => rfl) (fun _ _ => rfl) (fun _ _ _ => rfl)
    (fun _ => rfl) n hn

theorem restampEdges_ok (L : ℕ+) (hn : n.inTxn = false) :
    ∃ t, restampEdges L n =
        .ok ⟨⟩ { n with db := { n.db with edge := t }, cache := none, dirty := false } ∧
      ∀ key, t.lookup key =
        (n.db.edge.lookup key).map fun r => { r with leaf := leafOf (keyHex key) L } :=
  @restamp_ok _ _ _ (fun db => db.edge) (fun db t => { db with edge := t })
    (fun key r => { r with leaf := leafOf (keyHex key) L }) (fun _ _ => rfl) (fun _ _ => rfl)
    (fun _ _ _ => rfl) (fun _ => rfl) n hn

/-! ### Resharding keeps one resolution -/

/-- **One resolution.**  At the store's leaf count every row sits in the leaf of its key, and the digests
hold the rows' hashes there. -/
structure OneResolution (n : Node) : Prop where
  vertexLeaf : ∀ id r, n.db.vertex.lookup id = some r → r.leaf = leafOf id n.leaves
  edgeLeaf : ∀ key r, n.db.edge.lookup key = some r → r.leaf = leafOf (keyHex key) n.leaves
  digests : n.db.digests = n.db.rowSum

theorem MerkleInv.oneResolution {L : ℕ+} (h : MerkleInv L n) : OneResolution n where
  vertexLeaf := h.leaves.symm ▸ h.vertexLeaf
  edgeLeaf := h.leaves.symm ▸ h.edgeLeaf
  digests := sub_eq_zero.mp h.drift

/-- A reshard with the graph store leaves the rows as they were but for their leaf, and the digests of these leaves. -/
structure Restamped (L : ℕ+) (n n' : Node) : Prop where
  leaves : n'.leaves = L
  graphLeaves : n'.graphLeaves = L
  face : n'.face = n.face
  inTxn : n'.inTxn = false
  vertex : ∀ id, n'.db.vertex.lookup id =
    (n.db.vertex.lookup id).map fun r => { r with leaf := leafOf id L }
  edge : ∀ key, n'.db.edge.lookup key =
    (n.db.edge.lookup key).map fun r => { r with leaf := leafOf (keyHex key) L }
  digests : n'.db.digests = n'.db.rowSum

/-- **A reshard** of rows that can be hashed does nothing, or restamps them at its target. -/
theorem reshard_ok (hn : n.inTxn = false) (target : Option ℤ)
    (hh : ∀ key r, n.db.edge.lookup key = some r → ∃ h, edgeHash key (edgeRowContent r) = .ok h) :
    ∃ b n', reshard true target n = .ok b n' ∧
      (reshardTarget n.db true target = n.leaves ∧ n' = n ∨
        Restamped (reshardTarget n.db true target) n n') := by
  generalize htgt : reshardTarget n.db true target = tgt
  have hget : (get : DbM Node) n = .ok n n := rfl
  unfold reshard
  rw [bind_of_ok hget]
  dsimp only
  rw [htgt]
  by_cases hsame : tgt = n.leaves
  · rw [if_pos hsame]
    exact ⟨false, n, rfl, .inl ⟨hsame, rfl⟩⟩
  rw [if_neg hsame]
  obtain ⟨vt, hvrun, hv⟩ := restampVertices_ok tgt hn
  obtain ⟨et, herun, he⟩ := @restampEdges_ok
    { n with db := { n.db with vertex := vt }, cache := none, dirty := false } tgt hn
  -- the node both stores have moved on
  let m : Node := { n with db := { n.db with vertex := vt, edge := et }, cache := none,
                           dirty := false, leaves := tgt, graphLeaves := tgt }
  have hedge : ∀ key r, m.db.edge.lookup key = some r →
      ∃ v, edgeHash key (edgeRowContent r) = .ok v := by
    intro key r hr
    rw [show m.db.edge.lookup key = et.lookup key from rfl, he key] at hr
    obtain ⟨r₀, hr₀, rfl⟩ := Option.map_eq_some_iff.mp hr
    exact hh key r₀ hr₀
  obtain ⟨k, t, hk, hd⟩ := @rebuildMerkle_ok m hn hedge
  refine ⟨true, { m with db := { m.db with leafDigest := t }, cache := none, dirty := false }, ?_,
    .inr ⟨rfl, rfl, rfl, hn, hv, he, hd⟩⟩
  rw [bind_of_ok hvrun]
  exact (bind_of_ok herun).trans (bind_of_ok hk)

theorem reshard_inv {L : ℕ+} (h : MerkleInv L n) (hn : n.inTxn = false) (target : Option ℤ)
    (hface : ∀ l, n.face = some l → l = reshardTarget n.db true target) :
    ∃ b n', reshard true target n = .ok b n' ∧ MerkleInv (reshardTarget n.db true target) n' ∧
      n'.inTxn = false := by
  obtain ⟨b, n', hrun, ⟨hsame, rfl⟩ | hr⟩ := reshard_ok hn target h.hashable
  · have hL : reshardTarget n'.db true target = L := hsame.trans h.leaves
    exact ⟨b, n', hrun, hL.symm ▸ h, hn⟩
  · refine ⟨b, n', hrun, ⟨⟨hr.leaves, hr.graphLeaves, ?_, ?_, ?_, ?_⟩, sub_eq_zero.mpr hr.digests⟩,
      hr.inTxn⟩
    · rw [hr.face]
      exact hface
    · intro id r h'
      rw [hr.vertex id] at h'
      obtain ⟨r₀, -, rfl⟩ := Option.map_eq_some_iff.mp h'
      rfl
    · intro key r h'
      rw [hr.edge key] at h'
      obtain ⟨r₀, -, rfl⟩ := Option.map_eq_some_iff.mp h'
      rfl
    · intro key r h'
      rw [hr.edge key] at h'
      obtain ⟨r₀, hr₀, rfl⟩ := Option.map_eq_some_iff.mp h'
      exact h.hashable key r₀ hr₀

/-! ### Runs -/

/-- One call on the tree: an act of the store, or a reshard with the graph store passed. -/
inductive TreeOp
  | act (a : Act)
  | reshard (target : Option ℤ)
  | maybeReshard

def Node.treeOp (n : Node) : TreeOp → Node
  | .act a => n.after a
  | .reshard target =>
    match Mantle.reshard true target n with
    | .ok _ n' => n'
    | .error _ n' => n'
  | .maybeReshard =>
    match Mantle.maybeReshard true n with
    | .ok _ n' => n'
    | .error _ n' => n'

def Node.treeRun (n : Node) (ops : List TreeOp) : Node := ops.foldl Node.treeOp n

/-- No face is built at another count than the one a reshard would move to. -/
def FaceFollows (n : Node) (target : Option ℤ) : Prop :=
  ∀ l, n.face = some l → l = reshardTarget n.db true target

/-- What a call must meet: an act is stable, and a reshard that moves leaves no face behind. -/
def TreeOp.Meets (n : Node) : TreeOp → Prop
  | .act a => a.Stable
  | .reshard target => reshardTarget n.db true target ≠ n.leaves → FaceFollows n target
  | .maybeReshard => reshardTarget n.db true none ≠ n.leaves → FaceFollows n none

def RunMeets : Node → List TreeOp → Prop
  | _, [] => True
  | n, op :: ops => op.Meets n ∧ RunMeets (n.treeOp op) ops

/-- Between calls: one resolution, at the count of every store object. -/
def TreeInv (n : Node) : Prop := MerkleInv n.leaves n ∧ n.inTxn = false

theorem MerkleInv.treeInv {L : ℕ+} (h : MerkleInv L n) (hn : n.inTxn = false) : TreeInv n :=
  ⟨h.leaves.symm ▸ h, hn⟩

theorem treeInv_reshard {target : Option ℤ} (h : TreeInv n)
    (hm : reshardTarget n.db true target ≠ n.leaves → FaceFollows n target) :
    TreeInv (n.treeOp (.reshard target)) := by
  have hface : FaceFollows n target := by
    by_cases hs : reshardTarget n.db true target = n.leaves
    · intro l hl
      rw [hs]
      exact h.1.face l hl
    · exact hm hs
  obtain ⟨b, n', hr, hinv, hn'⟩ := reshard_inv h.1 h.2 target hface
  have hop : n.treeOp (.reshard target) = n' := by
    change (match Mantle.reshard true target n with | .ok _ n' => n' | .error _ n' => n') = n'
    rw [hr]
  rw [hop]
  exact hinv.treeInv hn'

theorem treeOp_maybeReshard (n : Node) :
    n.treeOp .maybeReshard = n ∨ n.treeOp .maybeReshard = n.treeOp (.reshard none) := by
  have hget : (get : DbM Node) n = .ok n n := rfl
  unfold Node.treeOp maybeReshard
  simp only
  rw [bind_of_ok hget]
  split_ifs
  · exact .inl rfl
  · exact .inr rfl

theorem treeInv_treeOp {op : TreeOp} (h : TreeInv n) (hm : op.Meets n) : TreeInv (n.treeOp op) := by
  cases op with
  | act a =>
    have hsteps := after_steps merkle_places (fun _ _ _ => trivial)
      (admits_of_forall merkle_admission a hm) h.2
    exact (steps_induct (fun _ _ h hs => merkleInv_step h hs) hsteps h.1).treeInv
      (steps_inTxn hsteps h.2)
  | reshard target => exact treeInv_reshard h hm
  | maybeReshard =>
    rcases treeOp_maybeReshard n with he | he
    · rw [he]
      exact h
    · rw [he]
      exact treeInv_reshard h hm

theorem treeInv_treeRun :
    ∀ (ops : List TreeOp) (n : Node), TreeInv n → RunMeets n ops → TreeInv (n.treeRun ops)
  | [], _, h, _ => h
  | op :: ops, n, h, hm => treeInv_treeRun ops (n.treeOp op) (treeInv_treeOp h hm.1) hm.2

/-- **One resolution for the whole tree**, after stable acts and reshards that leave no face behind. -/
theorem oneResolution_run (origin : Origin) (leaves : ℕ+) (ops : List TreeOp)
    (h : RunMeets (Node.fresh origin leaves) ops) :
    OneResolution ((Node.fresh origin leaves).treeRun ops) :=
  (treeInv_treeRun ops _ ((merkleInv_fresh origin leaves).treeInv rfl) h).1.oneResolution

def linkedRun : List TreeOp :=
  [.act (.putArtifact [("id", .str "c")] true false),
   .act (.putArtifact [("id", .str "a")] true false),
   .act (.addEdges [.tuple (.str "a") (.str "c") (.str "link") []] 1000 true),
   .maybeReshard,
   .act (.putArtifact [("id", .str "e"), ("collection_id", .str "c")] true false)]

theorem oneResolution_run_linkedRun :
    RunMeets (Node.fresh ⟨"here", by decide⟩ 1) linkedRun ∧
    OneResolution ((Node.fresh ⟨"here", by decide⟩ 1).treeRun linkedRun) := by
  have hface : ((Node.fresh ⟨"here", by decide⟩ 1).treeRun (linkedRun.take 3)).face = none := by
    decide +kernel
  have hm : RunMeets (Node.fresh ⟨"here", by decide⟩ 1) linkedRun := by
    refine ⟨?_, ?_, ?_, ?_, ?_, trivial⟩
    · simp [TreeOp.Meets, Act.Stable, Act.Forall, NumberedDoc]
    · simp [TreeOp.Meets, Act.Stable, Act.Forall, NumberedDoc]
    · rw [TreeOp.Meets, Act.Stable, Act.Forall]
      intro a ha e he
      rw [List.mem_singleton] at ha
      subst ha
      cases he
      refine ⟨?_, fun e he => by cases he⟩
      simp [textColumns, Doc.get, Doc.find?, Val.isNumber]
    · intro _ l hl
      exact absurd (hface.symm.trans hl) (by simp)
    · simp [TreeOp.Meets, Act.Stable, Act.Forall, NumberedDoc]
  exact ⟨hm, oneResolution_run ⟨"here", by decide⟩ 1 linkedRun hm⟩

def growingRun : List TreeOp :=
  [.act (.putArtifact [("id", .str "c")] true false),
   .act (.putArtifact [("id", .str "a"), ("collection_id", .str "c")] true false),
   .maybeReshard,
   .act (.putArtifact [("id", .str "e"), ("collection_id", .str "c")] true false)]

theorem growingRun_two_resolutions :
    ¬ ∀ ops : List TreeOp, OneResolution ((Node.fresh ⟨"here", by decide⟩ 1).treeRun ops) := by
  intro h
  obtain ⟨hrow, hcount, hat⟩ : (((Node.fresh ⟨"here", by decide⟩ 1).treeRun growingRun).db.edge.lookup
      (edgeKey "c" "e" "contains")).map (fun r => r.leaf) = some 0 ∧
      ((Node.fresh ⟨"here", by decide⟩ 1).treeRun growingRun).leaves = 2 ∧
        leafOf (keyHex (edgeKey "c" "e" "contains")) 2 = 1 := by decide +kernel
  obtain ⟨r, hr, hleaf⟩ := Option.map_eq_some_iff.mp hrow
  have := (h growingRun).edgeLeaf _ r hr
  rw [hcount, hat, hleaf] at this
  exact absurd this (by decide)

end Mantle
