import Mathlib.Tactic.Abel
import Mantle.Base.Xor
import Mantle.Db.Accounting

/-!
# Mantle.Db.Merkle — the incremental leaf digests are the rebuilt ones

A leaf digest is the XOR of the hashes of its rows.  It stays right as long as what an edge is hashed on when it is
written is what its row is hashed on when it is read back.
-/

namespace Mantle

open Relation

variable {a b : Doc} {aid : String} {key : EdgeKey} {row : ERow}

/-! ### Rebuilding -/

/-- `acc[leaf] = acc.get(leaf, 0) ^ value`. -/
def xorInto (acc : Table ℕ ℕ) (leaf value : ℕ) : Table ℕ ℕ :=
  acc.insert leaf ((acc.lookup leaf).getD 0 ^^^ value)

/-- The rows' hashes, XORed leaf by leaf: the vertices, then the edges. -/
def rebuiltLeaves (db : Store) : Except PyErr (Table ℕ ℕ) :=
  db.edge.toPairs.foldlM (fun acc e =>
      (edgeHash e.1 (edgeRowContent e.2)).map fun h => xorInto acc e.2.leaf h)
    (db.vertex.toPairs.foldl (fun acc e => xorInto acc e.2.leaf (rowHash e.1 (.int e.2.seq))) ∅)

/-- The rows of `leaf_digest`, each eight bytes. -/
def digestRows (t : Table ℕ ℕ) : Table ℕ ℕ :=
  (t.entries.map (Sigma.map id fun _ digest => digest &&& (2 ^ 64 - 1))).toAList

/-- `rebuild_merkle`: a full rescan into `leaf_digest`; returns how many rows it read. -/
def rebuildMerkle : DbM ℕ :=
  write do
    let n ← get
    let t ← Tx.ofExcept (rebuiltLeaves n.db)
    onDb fun db => { db with leafDigest := digestRows t }
    pure (n.db.vertex.toPairs.length + n.db.edge.toPairs.length)

/-! ### Digests as sums -/

def Store.digests (db : Store) : ℕ → XorNat := fun l => ⟨db.digestOf l⟩

def vertexWeight (id : String) (r : VRow) : ℕ → XorNat := xorAt r.leaf (rowHash id (.int r.seq))

def edgeWeight (key : EdgeKey) (r : ERow) : ℕ → XorNat :=
  xorAt r.leaf (contentHash key (edgeRowContent r))

def Store.rowSum (db : Store) : ℕ → XorNat :=
  Table.sumBy vertexWeight db.vertex + Table.sumBy edgeWeight db.edge

def Store.drift (db : Store) : ℕ → XorNat := db.digests - db.rowSum

theorem digests_xorLeaf (db : Store) (leaf : ℕ) {value : ℕ} (hv : value < 2 ^ 64) :
    (db.xorLeaf leaf value).digests = db.digests + xorAt leaf value := by
  funext l
  apply XorNat.ext
  change (db.xorLeaf leaf value).digestOf l = db.digestOf l ^^^ (xorAt leaf value l).val
  rw [Store.digestOf_xorLeaf _ _ _ hv, xorAt_apply]

theorem rowHash_lt (id : String) (seq : Val) : rowHash id seq < 2 ^ 64 := h64_lt _

theorem contentHash_lt (key : EdgeKey) (content : Doc) : contentHash key content < 2 ^ 64 := by
  unfold contentHash
  cases h : edgeHash key content with
  | error e => exact Nat.two_pow_pos 64
  | ok v => exact edgeHash_lt h

/-! ### What the changes do to the drift -/

section Drift

variable {db : Store}

theorem drift_congr {db' : Store} (hd : db'.digests = db.digests) (hv : db'.vertex = db.vertex)
    (he : db'.edge = db.edge) : db'.drift = db.drift := by
  unfold Store.drift Store.rowSum
  rw [hd, hv, he]

theorem drift_acceptVertex {row : VRow} {seq : Val} (hseq : rowHash aid seq = rowHash aid (.int row.seq))
    (hleaf : ∀ p, db.vertex.lookup aid = some p → p.leaf = row.leaf) :
    (db.acceptVertex aid row seq).drift = db.drift := by
  unfold Store.drift Store.rowSum
  rw [(Store.acceptVertex_tables db aid row seq).1, (Store.acceptVertex_tables db aid row seq).2,
    Table.sumBy_insert]
  have hd : (db.acceptVertex aid row seq).digests = db.digests
      - Table.weightAt vertexWeight db.vertex aid + vertexWeight aid row := by
    unfold Store.acceptVertex
    cases hp : db.vertex.lookup aid with
    | none =>
      rw [Table.weightAt_none hp, sub_zero]
      change ((db.putVertex aid row).xorLeaf row.leaf (rowHash aid seq)).digests = _
      rw [digests_xorLeaf _ _ (rowHash_lt _ _), hseq]
      rfl
    | some p =>
      rw [Table.weightAt_some hp]
      change (((db.putVertex aid row).xorLeaf row.leaf (rowHash aid (.int p.seq))).xorLeaf row.leaf
        (rowHash aid seq)).digests = _
      rw [digests_xorLeaf _ _ (rowHash_lt _ _), digests_xorLeaf _ _ (rowHash_lt _ _), hseq]
      unfold vertexWeight
      rw [hleaf p hp, sub_xorAt]
      rfl
  rw [hd]
  abel

theorem drift_acceptEdge {h : ℕ} (label : String) (hh : edgeHash key (edgeRowContent row) = .ok h)
    (hleaf : ∀ o, db.edge.lookup key = some o → o.leaf = row.leaf) :
    (db.acceptEdge key label row h).drift = db.drift := by
  unfold Store.drift Store.rowSum
  rw [(Store.acceptEdge_tables db key label row h).1, (Store.acceptEdge_tables db key label row h).2,
    Table.sumBy_insert]
  have hw : edgeWeight key row = xorAt row.leaf h := by
    unfold edgeWeight
    rw [contentHash_of_ok hh]
  have hd : (db.acceptEdge key label row h).digests = db.digests
      - Table.weightAt edgeWeight db.edge key + edgeWeight key row := by
    unfold Store.acceptEdge
    cases hp : db.edge.lookup key with
    | none =>
      rw [Table.weightAt_none hp, sub_zero, hw]
      change ((db.putEdge key row).xorLeaf row.leaf h).digests = _
      rw [digests_xorLeaf _ _ (edgeHash_lt hh)]
      rfl
    | some o =>
      rw [Table.weightAt_some hp, hw]
      change (((db.putEdge key row).xorLeaf row.leaf (contentHash key (edgeRowContent o))).xorLeaf
        row.leaf h).digests = _
      rw [digests_xorLeaf _ _ (edgeHash_lt hh), digests_xorLeaf _ _ (contentHash_lt _ _)]
      unfold edgeWeight
      rw [hleaf o hp, sub_xorAt]
      rfl
  rw [hd]
  abel

theorem drift_retireEdge {r : ERow} (label : String) (hr : db.edge.lookup key = some r) :
    (db.retireEdge key label r.leaf r).drift = db.drift := by
  unfold Store.drift Store.rowSum
  have hd : (db.retireEdge key label r.leaf r).digests = db.digests - edgeWeight key r := by
    change (({ db with edge := db.edge.erase key } : Store).xorLeaf r.leaf
      (contentHash key (edgeRowContent r))).digests = _
    rw [digests_xorLeaf _ _ (contentHash_lt _ _)]
    unfold edgeWeight
    rw [sub_xorAt]
    rfl
  have hv : (db.retireEdge key label r.leaf r).edge = db.edge.erase key ∧
      (db.retireEdge key label r.leaf r).vertex = db.vertex := ⟨rfl, rfl⟩
  rw [hd, hv.1, hv.2, Table.sumBy_erase, Table.weightAt_some hr]
  abel

theorem drift_eraseVertex {r : VRow} (hr : db.vertex.lookup aid = some r) :
    (db.eraseVertex aid).drift = db.drift + vertexWeight aid r := by
  unfold Store.drift Store.rowSum
  have hv : (db.eraseVertex aid).vertex = db.vertex.erase aid ∧
      (db.eraseVertex aid).edge = db.edge ∧ (db.eraseVertex aid).digests = db.digests :=
    ⟨rfl, rfl, rfl⟩
  rw [hv.1, hv.2.1, hv.2.2, Table.sumBy_erase, Table.weightAt_some hr]
  abel

theorem drift_settleVertex (aid : String) (r : VRow) (accounted : Bool) :
    (db.settleVertex aid r accounted).drift = db.drift - vertexWeight aid r := by
  unfold Store.drift Store.rowSum
  have hd : (db.settleVertex aid r accounted).digests = db.digests - vertexWeight aid r := by
    have hx : (db.settleVertex aid r accounted).digests =
        (db.xorLeaf r.leaf (rowHash aid (.int r.seq))).digests := by
      cases accounted <;> rfl
    rw [hx, digests_xorLeaf _ _ (rowHash_lt _ _)]
    unfold vertexWeight
    rw [sub_xorAt]
  rw [hd, (Store.settleVertex_frame db aid r accounted).1,
    (Store.settleVertex_frame db aid r accounted).2.1]
  abel

theorem drift_patchVertex {r : VRow} (hr : db.vertex.lookup aid = some r) (doc : JsonCol) :
    (db.patchVertex aid r doc).drift = db.drift := by
  unfold Store.drift Store.rowSum
  have hv : (db.patchVertex aid r doc).vertex = db.vertex.insert aid { r with doc := doc } ∧
      (db.patchVertex aid r doc).edge = db.edge ∧ (db.patchVertex aid r doc).digests = db.digests :=
    ⟨rfl, rfl, rfl⟩
  have hw : vertexWeight aid { r with doc := doc } = vertexWeight aid r := rfl
  rw [hv.1, hv.2.1, hv.2.2, Table.sumBy_insert, Table.weightAt_some hr, hw]
  abel

end Drift

/-! ### The invariant -/

/-- At a fixed leaf count every row sits in the leaf of its key, and every edge row can be hashed. -/
structure Placed (L : ℕ+) (n : Node) : Prop where
  leaves : n.leaves = L
  graphLeaves : n.graphLeaves = L
  face : ∀ l, n.face = some l → l = L
  vertexLeaf : ∀ id r, n.db.vertex.lookup id = some r → r.leaf = leafOf id L
  edgeLeaf : ∀ key r, n.db.edge.lookup key = some r → r.leaf = leafOf (keyHex key) L
  hashable : ∀ key r, n.db.edge.lookup key = some r →
    ∃ h, edgeHash key (edgeRowContent r) = .ok h

/-- Then the digests do not drift. -/
structure MerkleInv (L : ℕ+) (n : Node) : Prop extends Placed L n where
  drift : n.db.drift = 0

/-- What the invariant asks of a run: a consumed vertex is hashed under the number its row carries,
an edge on what its row holds. -/
def merkleAdm : Adm where
  consumedVertex _ row seq := seq = .int row.seq
  authoredVertex _ _ := True
  consumedEdge key row h := edgeHash key (edgeRowContent row) = .ok h
  authoredEdge key row h := edgeHash key (edgeRowContent row) = .ok h
  observed _ _ := True
  evict := True
  patch := True

section Invariant

variable {L : ℕ+} {n n' : Node}

theorem Placed.edgeLeaves (h : Placed L n) {leaves : ℕ+} (hl : n.EdgeLeaves leaves) :
    leaves = L := by
  rcases hl with rfl | rfl | hf
  · exact h.leaves
  · exact h.graphLeaves
  · exact h.face leaves hf

theorem Placed.of_rows (h : Placed L n) (he : SameEnv n n')
    (hv : ∀ id r, n'.db.vertex.lookup id = some r →
      n.db.vertex.lookup id = some r ∨ r.leaf = leafOf id L)
    (hed : ∀ key r, n'.db.edge.lookup key = some r → n.db.edge.lookup key = some r ∨
      r.leaf = leafOf (keyHex key) L ∧ ∃ v, edgeHash key (edgeRowContent r) = .ok v) :
    Placed L n' where
  leaves := he.leaves.trans h.leaves
  graphLeaves := he.graphLeaves.trans h.graphLeaves
  face := by
    intro l hl
    rcases he.face with hf | ⟨-, hf⟩
    · exact h.face l (hf ▸ hl)
    · rw [hf] at hl
      exact (Option.some.inj hl).symm.trans h.leaves
  vertexLeaf := by
    intro id r hr
    rcases hv id r hr with hr' | hr'
    · exact h.vertexLeaf id r hr'
    · exact hr'
  edgeLeaf := by
    intro key r hr
    rcases hed key r hr with hr' | hr'
    · exact h.edgeLeaf key r hr'
    · exact hr'.1
  hashable := by
    intro key r hr
    rcases hed key r hr with hr' | hr'
    · exact h.hashable key r hr'
    · exact hr'.2

theorem Placed.of_tables (h : Placed L n) (he : SameEnv n n') (hv : n'.db.vertex = n.db.vertex)
    (hed : n'.db.edge = n.db.edge) : Placed L n' :=
  h.of_rows he (fun _ _ hr => .inl (hv ▸ hr)) fun _ _ hr => .inl (hed ▸ hr)

theorem Placed.retire (h : Placed L n) (hr : Retire n n') :
    Placed L n' ∧ n'.db.drift = n.db.drift := by
  have he := hr.sameEnv
  cases hr with
  | @edge key label r leaves hk hl =>
    have hleaf : leafOf (keyHex key) leaves = r.leaf := by
      rw [h.edgeLeaves hl, h.edgeLeaf key r hk]
    refine ⟨h.of_rows he (fun _ _ hv => .inl hv) ?_, ?_⟩
    · intro k r' hk'
      change (n.db.edge.erase key).lookup k = some r' at hk'
      rw [Table.lookup_erase_of] at hk'
      split_ifs at hk'
      exact .inl hk'
    · rw [hleaf]
      exact drift_retireEdge label hk
  | bump _ => exact ⟨h.of_tables he rfl rfl, drift_congr rfl rfl rfl⟩

theorem Placed.retires (h : Placed L n) (hr : ReflTransGen Retire n n') :
    Placed L n' ∧ n'.db.drift = n.db.drift := by
  induction hr with
  | refl => exact ⟨h, rfl⟩
  | tail _ hs ih =>
    obtain ⟨h1, h2⟩ := ih.1.retire hs
    exact ⟨h1, h2.trans ih.2⟩

theorem Placed.erase (h : Placed L n) (aid : String) :
    Placed L { n with db := n.db.eraseVertex aid } := by
  refine h.of_rows (SameEnv.db n _) ?_ fun _ _ hr => .inl hr
  intro id r hr
  change (n.db.vertex.erase aid).lookup id = some r at hr
  rw [Table.lookup_erase_of] at hr
  split_ifs at hr
  exact .inl hr

theorem MerkleInv.acceptVertex (h : MerkleInv L n) {row : VRow} {seq : Val} (he : SameEnv n n')
    (hdb : n'.db = n.db.acceptVertex aid row seq) (hseq : seq = .int row.seq)
    (hl : row.leaf = leafOf aid n.leaves) : MerkleInv L n' := by
  have hleaf : row.leaf = leafOf aid L := by rw [hl, h.leaves]
  obtain ⟨hv, hed⟩ := Store.acceptVertex_tables n.db aid row seq
  refine ⟨h.toPlaced.of_rows he ?_ ?_, ?_⟩
  · intro id r hr
    rw [hdb, hv, Table.lookup_insert_of] at hr
    split_ifs at hr with hid
    · cases hr
      exact .inr (hid ▸ hleaf)
    · exact .inl hr
  · intro key r hr
    rw [hdb, hed] at hr
    exact .inl hr
  · rw [hdb, drift_acceptVertex (by rw [hseq]), h.drift]
    intro p hp
    rw [h.vertexLeaf aid p hp, hleaf]

theorem MerkleInv.acceptEdge (h : MerkleInv L n) {label : String} {v : ℕ} {leaves : ℕ+} (he : SameEnv n n')
    (hdb : n'.db = n.db.acceptEdge key label row v) (hh : edgeHash key (edgeRowContent row) = .ok v)
    (hl : row.leaf = leafOf (keyHex key) leaves) (hL : n.EdgeLeaves leaves) : MerkleInv L n' := by
  have hleaf : row.leaf = leafOf (keyHex key) L := by rw [hl, h.edgeLeaves hL]
  obtain ⟨hed, hv⟩ := Store.acceptEdge_tables n.db key label row v
  refine ⟨h.toPlaced.of_rows he ?_ ?_, ?_⟩
  · intro id r hr
    rw [hdb, hv] at hr
    exact .inl hr
  · intro k r hr
    rw [hdb, hed, Table.lookup_insert_of] at hr
    split_ifs at hr with hk
    · cases hr
      exact .inr (hk ▸ ⟨hleaf, v, hh⟩)
    · exact .inl hr
  · rw [hdb, drift_acceptEdge label hh, h.drift]
    intro o ho
    rw [h.edgeLeaf key o ho, hleaf]

theorem merkleInv_micro (h : MerkleInv L n) (hm : Micro merkleAdm n n') : MerkleInv L n' := by
  have he := hm.sameEnv
  cases hm with
  | retire hr =>
    obtain ⟨h1, h2⟩ := h.toPlaced.retire hr
    exact ⟨h1, h2.trans h.drift⟩
  | observe _ => exact ⟨h.toPlaced.of_tables he rfl rfl, (drift_congr rfl rfl rfl).trans h.drift⟩
  | task => exact ⟨h.toPlaced.of_tables he rfl rfl, (drift_congr rfl rfl rfl).trans h.drift⟩
  | env _ _ => exact ⟨h.toPlaced.of_tables he rfl rfl, h.drift⟩
  | @patch aid r doc _ hr =>
    refine ⟨h.toPlaced.of_rows he ?_ fun _ _ hk => .inl hk, (drift_patchVertex hr doc).trans h.drift⟩
    intro id r' hr'
    change (n.db.vertex.insert aid { r with doc := doc }).lookup id = some r' at hr'
    rw [Table.lookup_insert_of] at hr'
    split_ifs at hr' with hid
    · cases hr'
      exact .inr (hid ▸ h.vertexLeaf aid r hr)
    · exact .inl hr'
  | authorVertex _ _ _ hl => exact h.acceptVertex he rfl rfl hl
  | consumeVertex ha _ _ hl => exact h.acceptVertex he rfl ha hl
  | authorEdge ha _ _ hl hL => exact h.acceptEdge he rfl ha hl hL
  | consumeEdge ha _ hl hL => exact h.acceptEdge he rfl ha hl hL
  | @drop m aid r hr hret =>
    obtain ⟨h1, h2⟩ := (h.toPlaced.erase aid).retires hret
    obtain ⟨hv, hed, -, -⟩ := Store.settleVertex_frame m.db aid r true
    refine ⟨h1.of_tables (SameEnv.db m _) hv hed, ?_⟩
    change (m.db.settleVertex aid r true).drift = 0
    rw [drift_settleVertex, h2]
    change (n.db.eraseVertex aid).drift - vertexWeight aid r = 0
    rw [drift_eraseVertex hr, h.drift]
    abel
  | @evict aid r _ hr =>
    obtain ⟨hv, hed, -, -⟩ := Store.settleVertex_frame (n.db.eraseVertex aid) aid r false
    refine ⟨(h.toPlaced.erase aid).of_tables (SameEnv.db _ _) hv hed, ?_⟩
    change ((n.db.eraseVertex aid).settleVertex aid r false).drift = 0
    rw [drift_settleVertex, drift_eraseVertex hr, h.drift]
    abel

theorem flushed_frame (m : Node) : SameEnv m.end m.flushed.end ∧
    m.flushed.end.db.vertex = m.db.vertex ∧ m.flushed.end.db.edge = m.db.edge ∧
    m.flushed.end.db.leafDigest = m.db.leafDigest := by
  unfold Node.flushed
  split <;> exact ⟨⟨rfl, rfl, rfl, rfl, .inl rfl, fun h => h⟩, rfl, rfl, rfl⟩

theorem merkleInv_step (h : MerkleInv L n) (hs : Step merkleAdm n n') : MerkleInv L n' := by
  have hb : MerkleInv L n.begin :=
    ⟨⟨h.leaves, h.graphLeaves, h.face, h.vertexLeaf, h.edgeLeaf, h.hashable⟩, h.drift⟩
  cases hs with
  | @commit m hm hc =>
    have hk := micros_induct (fun _ _ h hm => merkleInv_micro h hm) hm hb
    have hend : Placed L m.end :=
      ⟨hk.leaves, hk.graphLeaves, hk.face, hk.vertexLeaf, hk.edgeLeaf, hk.hashable⟩
    obtain ⟨he, hv, hed, hd⟩ := flushed_frame m
    refine ⟨hend.of_tables he hv hed, (drift_congr ?_ hv hed).trans hk.drift⟩
    funext l
    exact XorNat.ext (Store.digestOf_congr hd l)
  | @abort m he =>
    have hp : Placed L { m with db := n.db } := hb.toPlaced.of_rows
      ⟨he.origin, he.leaves, he.graphLeaves, he.inTxn, he.face, he.dirty⟩
      (fun _ _ hr => .inl hr) fun _ _ hr => .inl hr
    exact ⟨⟨hp.leaves, hp.graphLeaves, hp.face, hp.vertexLeaf, hp.edgeLeaf, hp.hashable⟩, h.drift⟩

theorem merkleInv_fresh (origin : Origin) (L : ℕ+) : MerkleInv L (Node.fresh origin L) where
  leaves := rfl
  graphLeaves := rfl
  face := by
    intro l hl
    cases hl
  vertexLeaf := by
    intro id r hr
    cases hr
  edgeLeaf := by
    intro key r hr
    cases hr
  hashable := by
    intro key r hr
    cases hr
  drift := by
    have hd : (Node.fresh origin L).db.digests = 0 := rfl
    have hr : (Node.fresh origin L).db.rowSum = 0 + 0 := rfl
    unfold Store.drift
    rw [hd, hr]
    abel

end Invariant

/-! ### The rebuilt table -/

theorem rebuilt_xorInto (t : Table ℕ ℕ) (leaf value l : ℕ) :
    ((xorInto t leaf value).lookup l).getD 0 =
      (t.lookup l).getD 0 ^^^ (xorAt leaf value l).val := by
  unfold xorInto
  rw [Table.lookup_insert_of, xorAt_apply]
  split_ifs with h
  · subst h
    rfl
  · rw [Nat.xor_zero]

def tableDigests (t : Table ℕ ℕ) : ℕ → XorNat := fun l => ⟨(t.lookup l).getD 0⟩

theorem tableDigests_xorInto (t : Table ℕ ℕ) (leaf value : ℕ) :
    tableDigests (xorInto t leaf value) = tableDigests t + xorAt leaf value := by
  funext l
  exact XorNat.ext (rebuilt_xorInto t leaf value l)

theorem tableDigests_vertices :
    ∀ (rows : List (String × VRow)) (t : Table ℕ ℕ),
      tableDigests (rows.foldl
        (fun acc e => xorInto acc e.2.leaf (rowHash e.1 (.int e.2.seq))) t) =
        tableDigests t + (rows.map fun e => vertexWeight e.1 e.2).sum
  | [], t => by simp
  | e :: rows, t => by
    rw [List.foldl_cons, tableDigests_vertices rows, tableDigests_xorInto, List.map_cons,
      List.sum_cons, add_assoc]
    rfl

theorem tableDigests_edges :
    ∀ (rows : List (EdgeKey × ERow)) (t : Table ℕ ℕ),
      (∀ e ∈ rows, ∃ h, edgeHash e.1 (edgeRowContent e.2) = .ok h) →
      ∃ t', rows.foldlM (fun acc e => (edgeHash e.1 (edgeRowContent e.2)).map fun h =>
          xorInto acc e.2.leaf h) t = Except.ok t' ∧
        tableDigests t' = tableDigests t + (rows.map fun e => edgeWeight e.1 e.2).sum
  | [], t, _ => ⟨t, rfl, by simp⟩
  | e :: rows, t, hh => by
    obtain ⟨h, he⟩ := hh e (by simp)
    obtain ⟨t', hf, hd⟩ := tableDigests_edges rows (xorInto t e.2.leaf h)
      fun e' he' => hh e' (by simp [he'])
    refine ⟨t', ?_, ?_⟩
    · rw [List.foldlM_cons, he]
      exact hf
    · have hw : edgeWeight e.1 e.2 = xorAt e.2.leaf h := by
        unfold edgeWeight
        rw [contentHash_of_ok he]
      rw [hd, tableDigests_xorInto, List.map_cons, List.sum_cons, hw, add_assoc]

theorem sumBy_toPairs {κ ρ M : Type} [DecidableEq κ] [AddCommGroup M] (w : κ → ρ → M)
    (t : Table κ ρ) : Table.sumBy w t = (t.toPairs.map fun e => w e.1 e.2).sum := by
  unfold Table.sumBy Table.toPairs
  rw [List.map_map]
  rfl

theorem rebuiltLeaves_ok {db : Store}
    (hh : ∀ key r, db.edge.lookup key = some r → ∃ h, edgeHash key (edgeRowContent r) = .ok h) :
    ∃ t, rebuiltLeaves db = .ok t ∧ tableDigests t = db.rowSum := by
  obtain ⟨t, ht, hd⟩ := tableDigests_edges db.edge.toPairs
    (db.vertex.toPairs.foldl
      (fun acc e => xorInto acc e.2.leaf (rowHash e.1 (.int e.2.seq))) ∅)
    fun e he => hh e.1 e.2 (Table.mem_toPairs.mp he)
  refine ⟨t, ht, ?_⟩
  have h0 : tableDigests (∅ : Table ℕ ℕ) = 0 := rfl
  rw [hd, tableDigests_vertices, h0, zero_add]
  unfold Store.rowSum
  rw [sumBy_toPairs, sumBy_toPairs]

/-- Digests of 64 bits. -/
def Bounded (f : ℕ → XorNat) : Prop := ∀ l, (f l).val < 2 ^ 64

theorem bounded_xorAt (leaf : ℕ) {value : ℕ} (hv : value < 2 ^ 64) : Bounded (xorAt leaf value) := by
  intro l
  rw [xorAt_apply]
  split_ifs
  · exact hv
  · exact Nat.two_pow_pos 64

theorem bounded_sum : ∀ {fs : List (ℕ → XorNat)}, (∀ f ∈ fs, Bounded f) → Bounded fs.sum
  | [], _ => fun _ => Nat.two_pow_pos 64
  | f :: fs, h => by
    intro l
    rw [List.sum_cons]
    exact Nat.xor_lt_two_pow (h f (by simp) l) (bounded_sum (fun g hg => h g (by simp [hg])) l)

theorem bounded_rowSum (db : Store) : Bounded db.rowSum := by
  have hv : Bounded (Table.sumBy vertexWeight db.vertex) := by
    refine bounded_sum ?_
    intro f hf
    obtain ⟨e, -, rfl⟩ := List.mem_map.mp hf
    exact bounded_xorAt _ (rowHash_lt _ _)
  have he : Bounded (Table.sumBy edgeWeight db.edge) := by
    refine bounded_sum ?_
    intro f hf
    obtain ⟨e, -, rfl⟩ := List.mem_map.mp hf
    exact bounded_xorAt _ (contentHash_lt _ _)
  exact fun l => Nat.xor_lt_two_pow (hv l) (he l)

theorem lookup_digestRows (t : Table ℕ ℕ) (l : ℕ) :
    (digestRows t).lookup l = (t.lookup l).map (· &&& (2 ^ 64 - 1)) := by
  unfold digestRows
  rw [AList.lookup_to_alist, List.dlookup_map₂]
  rfl

theorem digests_digestRows {db : Store} {t : Table ℕ ℕ} (hd : tableDigests t = db.rowSum) :
    ({ db with leafDigest := digestRows t } : Store).digests = db.rowSum := by
  funext l
  have hl : (t.lookup l).getD 0 = (db.rowSum l).val := congrArg XorNat.val (congrFun hd l)
  have hmask : ((digestRows t).lookup l).getD 0 = (t.lookup l).getD 0 &&& (2 ^ 64 - 1) := by
    rw [lookup_digestRows]
    cases t.lookup l <;> simp
  apply XorNat.ext
  change ((digestRows t).lookup l).getD 0 = _
  rw [hmask, hl, Nat.and_two_pow_sub_one_eq_mod, Nat.mod_eq_of_lt (bounded_rowSum db l)]

theorem rebuildMerkle_ok {n : Node} (hn : n.inTxn = false)
    (hh : ∀ key r, n.db.edge.lookup key = some r → ∃ h, edgeHash key (edgeRowContent r) = .ok h) :
    ∃ k t, rebuildMerkle n = .ok k
        { n with db := { n.db with leafDigest := t }, cache := none, dirty := false } ∧
      ({ n.db with leafDigest := t } : Store).digests = n.db.rowSum := by
  obtain ⟨t, ht, hd⟩ := rebuiltLeaves_ok hh
  refine ⟨n.db.vertex.toPairs.length + n.db.edge.toPairs.length, digestRows t, ?_,
    digests_digestRows hd⟩
  obtain ⟨origin, db, cache, dirty, inTxn, leaves, graphLeaves, face, unplaced⟩ := n
  cases (show inTxn = false from hn)
  unfold rebuildMerkle
  rw [write_own rfl]
  have hb : rebuiltLeaves db = .ok t := ht
  have hget : (get : DbM Node) (Node.begin ⟨origin, db, cache, dirty, false, leaves, graphLeaves, face, unplaced⟩) =
      .ok _ _ := rfl
  rw [bind_assoc, Tx.bind_of_ok hget]
  simp only [Node.begin, hb]
  rfl

theorem MerkleInv.rebuilt {L : ℕ+} {n : Node} (h : MerkleInv L n) (hn : n.inTxn = false) :
    ∃ k n', rebuildMerkle n = .ok k n' ∧ ∀ l, n'.db.digestOf l = n.db.digestOf l := by
  obtain ⟨k, t, hk, hd⟩ := rebuildMerkle_ok hn h.hashable
  refine ⟨k, _, hk, fun l => ?_⟩
  have hsum : n.db.digests = n.db.rowSum := sub_eq_zero.mp h.drift
  exact congrArg XorNat.val (congrFun (hd.trans hsum.symm) l)

/-! ### Props that are read back as they were hashed -/

def Val.isNumber : Val → Bool
  | .bool _ => true
  | .int _ => true
  | .float _ => true
  | _ => false

def textColumns : List String := ["force", "propagate", "order_key"]

/-- No promoted text column is given a number, and the canonical JSON of every other prop survives
`json.loads(json.dumps(...))`. -/
def StableProps (props : Doc) : Prop :=
  (∀ k ∈ textColumns, (props.get k).isNumber = false) ∧
  ∀ e ∈ blobOf props, e.2.norm.dumps .canonical = e.2.dumps .canonical

theorem bindText_of_not_number {v w : Val} (hv : v.isNumber = false) (h : bindText v = .ok w) :
    w = v := by
  cases v with
  | bool b => cases hv
  | int n => cases hv
  | float f => cases hv
  | none => exact (Except.ok.inj h).symm
  | str s => exact (Except.ok.inj h).symm
  | bytes b => exact (Except.ok.inj h).symm
  | list xs => cases h
  | tuple xs => cases h
  | dict items => cases h

def SameText (a b : String × Val) : Prop :=
  a.1 = b.1 ∧ a.2.isNone = b.2.isNone ∧ a.2.dumps .canonical = b.2.dumps .canonical

theorem forall₂_set {R : String × Val → String × Val → Prop} (hR : ∀ x y, R x y → x.1 = y.1)
    (h : List.Forall₂ R a b) (k : String) {v w : Val} (hv : R (k, v) (k, w)) :
    List.Forall₂ R (a.set k v) (b.set k w) := by
  induction h with
  | nil => exact .cons hv .nil
  | @cons x y xs ys hxy hrest ih =>
    obtain ⟨k₁, v₁⟩ := x
    obtain ⟨k₂, v₂⟩ := y
    obtain rfl : k₁ = k₂ := hR _ _ hxy
    unfold Doc.set
    split_ifs
    · exact .cons hv hrest
    · exact .cons hxy ih

theorem forall₂_update {R : String × Val → String × Val → Prop} (hR : ∀ x y, R x y → x.1 = y.1) {d e : Doc}
    (he : List.Forall₂ R d e) : ∀ {a b : Doc}, List.Forall₂ R a b → List.Forall₂ R (a.update d) (b.update e) := by
  induction he with
  | nil => exact fun h => h
  | @cons x y xs ys hxy _ ih =>
    intro a b h
    obtain ⟨k₁, v₁⟩ := x
    obtain ⟨k₂, v₂⟩ := y
    obtain rfl : k₁ = k₂ := hR _ _ hxy
    exact ih (forall₂_set hR h k₁ hxy)

theorem sameText_clean (h : List.Forall₂ SameText a b) :
    List.Forall₂ SameText (cleanContent a) (cleanContent b) := by
  induction h with
  | nil => exact .nil
  | @cons x y xs ys hxy _ ih =>
    unfold cleanContent
    rw [List.filter_cons, List.filter_cons, hxy.1, hxy.2.1]
    split_ifs
    · exact .cons hxy ih
    · exact ih

theorem sameText_dumpsItems (h : List.Forall₂ SameText a b) :
    Val.dumpsItems .canonical a.toItems = Val.dumpsItems .canonical b.toItems := by
  induction h with
  | nil => rfl
  | @cons x y xs ys hxy _ ih =>
    unfold Doc.toItems at ih ⊢
    rw [List.map_cons, List.map_cons, Val.dumpsItems, Val.dumpsItems, hxy.2.2, hxy.1, ih]

theorem canonContent_congr (h : List.Forall₂ SameText a b) :
    canonContent a = canonContent b := by
  unfold canonContent Doc.dumps
  rw [Val.dumps, Val.dumps, sameText_dumpsItems (sameText_clean h)]

theorem Val.isNone_norm (v : Val) : v.norm.isNone = v.isNone := by
  cases v <;> simp [Val.norm, Val.isNone]

theorem sameText_norm : ∀ {d : Doc}, (∀ e ∈ d, e.2.norm.dumps .canonical = e.2.dumps .canonical) →
    List.Forall₂ SameText d.norm d
  | [], _ => .nil
  | e :: d, h => .cons ⟨rfl, Val.isNone_norm e.2, h e (by simp)⟩
      (sameText_norm fun e' he' => h e' (by simp [he']))

theorem edgeHash_row {e : EdgeSpec} {origin : String} {seq : ℤ} {leaf : ℕ} (hp : StableProps e.props)
    (h : edgeRow e origin seq leaf = .ok row) (old : Option ERow) (key : EdgeKey) :
    edgeHash key (edgeRowContent (upsertEdge old row)) =
      edgeHash key (edgePropsContent e.props) := by
  obtain ⟨hf, hg, ho, hi, hb⟩ := edgeRow_content h
  have hup : edgeRowContent (upsertEdge old row) = edgeRowContent row := by
    cases old <;> rfl
  have hcol : ∀ k ∈ textColumns, ∀ w, bindText (e.props.get k) = .ok w → w = e.props.get k :=
    fun k hk w hw => bindText_of_not_number (hp.1 k hk) hw
  rw [hup]
  apply edgeHash_congr
  unfold edgeRowContent edgePropsContent edgeContent
  rw [hcol _ (by decide) _ hf, hcol _ (by decide) _ hg, hcol _ (by decide) _ ho, hi, hb]
  refine canonContent_congr (forall₂_update (fun _ _ h => h.1) (sameText_norm hp.2) ?_)
  exact List.forall₂_same.mpr fun _ _ => ⟨rfl, rfl, rfl⟩

theorem stableProps_place (aid : String) : StableProps (placeProps aid) := by
  refine ⟨?_, ?_⟩
  · simp [textColumns, placeProps, Doc.get, Doc.find?, Val.isNumber]
  intro e he
  have hb : blobOf (placeProps aid) = [("root_id", .str aid)] := by
    simp [blobOf, placeProps, Doc.without, promoted, isPrivate]
  rw [hb, List.mem_singleton] at he
  rw [he]
  rfl

/-! ### Runs -/

/-- A consumed document carries a number, not a truth value, as its `_seq`. -/
def NumberedDoc (stampRev : Bool) (d : Doc) : Prop :=
  stampRev = false → ∀ b, d.get "_seq" ≠ .bool b

def StableEdge (_ : Bool) (e : EdgeSpec) : Prop := StableProps e.props

def Act.Stable (a : Act) : Prop := a.Forall NumberedDoc StableEdge True

theorem merkle_edgeAdm {b : Bool} {a : EdgeArg}
    (h : ∀ e, unpack a = .ok e → StableProps e.props) : EdgeAdm merkleAdm b a := by
  intro e he v hv
  refine ⟨?_, ?_⟩
  · intro _ origin seq leaf row old hrow
    exact (edgeHash_row (h e he) hrow old _).trans hv
  · intro _ origin seq leaf row old hrow _
    exact (edgeHash_row (h e he) hrow old _).trans hv

theorem merkle_places : merkleAdm.Places := by
  intro cid aid
  refine merkle_edgeAdm ?_
  intro e he
  have hprops : e.props = placeProps aid := by
    unfold unpack unpackFields at he
    simp only at he
    split_ifs at he
    cases he
    rfl
  rw [hprops]
  exact stableProps_place aid

theorem merkle_admission : Admission merkleAdm NumberedDoc StableEdge True where
  put := by
    intro b d h
    refine ⟨?_, fun _ _ _ _ => trivial⟩
    intro d' hd aid _ origin seq s leaf prev row hrow
    refine ⟨fun _ _ => trivial, ?_⟩
    intro hb hseq hv
    have hget : d'.get "_seq" = d.get "_seq" := by
      rcases hd with rfl | ⟨v, rfl⟩
      · rfl
      · exact Doc.get_set_of_ne _ _ (by decide)
    change seq = .int (upsertVertex prev row).seq
    rw [(upsertVertex_fields prev row).2.1, (vertexRow_ok hrow).2.1, hseq]
    have hs := (incomingVersion_asInt hv).2
    have hnb := h hb
    rw [← hget] at hnb
    cases hval : d'.get "_seq" with
    | int k =>
      rw [hval] at hs
      rw [Option.some.inj hs]
    | bool k => exact absurd hval (hnb k)
    | _ =>
      rw [hval] at hs
      cases hs
  add := fun _ a h => ⟨merkle_edgeAdm h, fun _ _ _ _ _ _ => trivial⟩
  evict := id
  patch := trivial

/-- **Incremental equals rebuilt**, in every state that stable acts reach at a fixed leaf count. -/
theorem incremental_eq_rebuilt (origin : Origin) (leaves : ℕ+) (acts : List Act)
    (h : ∀ a ∈ acts, a.Stable) :
    ∃ k n', rebuildMerkle ((Node.fresh origin leaves).run acts) = .ok k n' ∧
      ∀ l, n'.db.digestOf l = ((Node.fresh origin leaves).run acts).db.digestOf l := by
  have hsteps := run_steps merkle_places (fun _ _ _ => trivial) acts (Node.fresh origin leaves)
    (fun a ha => admits_of_forall merkle_admission a (h a ha)) rfl
  exact (steps_induct (fun _ _ h hs => merkleInv_step h hs) hsteps
    (merkleInv_fresh origin leaves)).rebuilt (steps_inTxn hsteps rfl)

def stableRun : List Act :=
  [.putArtifact [("id", .str "c")] true false,
   .putArtifact [("id", .str "a"), ("collection_id", .str "c")] true false,
   .addEdges [.tuple (.str "a") (.str "c") (.str "link") [("order_key", .str "5")]] 1000 true]

theorem incremental_eq_rebuilt_stableRun :
    (∀ a ∈ stableRun, a.Stable) ∧
    ∃ k n', rebuildMerkle ((Node.fresh ⟨"here", by decide⟩ 4096).run stableRun) = .ok k n' ∧
      ∀ l, n'.db.digestOf l =
        ((Node.fresh ⟨"here", by decide⟩ 4096).run stableRun).db.digestOf l := by
  have hs : ∀ a ∈ stableRun, a.Stable := by
    intro a ha
    simp only [stableRun, List.mem_cons, List.not_mem_nil, or_false] at ha
    rcases ha with rfl | rfl | rfl
    · simp [Act.Stable, Act.Forall, NumberedDoc]
    · simp [Act.Stable, Act.Forall, NumberedDoc]
    · rw [Act.Stable, Act.Forall]
      intro a ha e he
      rw [List.mem_singleton] at ha
      subst ha
      have hprops : e.props = [("order_key", .str "5")] := by
        cases he
        rfl
      unfold StableEdge
      rw [hprops]
      refine ⟨?_, ?_⟩
      · simp [textColumns, Doc.get, Doc.find?, Val.isNumber]
      · intro e he
        cases he
  exact ⟨hs, incremental_eq_rebuilt ⟨"here", by decide⟩ 4096 stableRun hs⟩

def numberedLink : Act :=
  .addEdges [.tuple (.str "a") (.str "b") (.str "link") [("order_key", .int 5)]] 1000 true

theorem numberedLink_drifts :
    ¬ ∀ acts : List Act,
      ∃ k n', rebuildMerkle ((Node.fresh ⟨"here", by decide⟩ 1).run acts) = .ok k n' ∧
        ∀ l, n'.db.digestOf l = ((Node.fresh ⟨"here", by decide⟩ 1).run acts).db.digestOf l := by
  intro h
  obtain ⟨k, n', hr, hl⟩ := h [numberedLink]
  have hne : (match rebuildMerkle ((Node.fresh ⟨"here", by decide⟩ 1).run [numberedLink]) with
      | .ok _ n' => decide (n'.db.digestOf 0 =
          ((Node.fresh ⟨"here", by decide⟩ 1).run [numberedLink]).db.digestOf 0)
      | .error _ _ => false) = false := by decide +kernel
  rw [hr] at hne
  simp [hl 0] at hne

end Mantle
