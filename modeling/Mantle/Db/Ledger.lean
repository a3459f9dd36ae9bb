import Mantle.Db.Vertex

/-!
# Mantle.Db.Ledger — what a write can do to the store, as a transition system

Every operation of the two stores is a sequence of few kinds of changes.  `Micro` is that transition system inside a
transaction, `Step` adds commit and abort.
-/

namespace Mantle

/-! ### The changes, as pure functions of the store -/

def contentHash (key : EdgeKey) (content : Doc) : ℕ := (edgeHash key content).toOption.getD 0

theorem contentHash_of_ok {key : EdgeKey} {content : Doc} {h : ℕ}
    (hh : edgeHash key content = .ok h) : contentHash key content = h := by
  unfold contentHash
  rw [hh]
  rfl

namespace Store

def acceptVertex (db : Store) (aid : String) (row : VRow) (seq : Val) : Store :=
  match db.vertex.lookup aid with
  | none =>
    ((db.putVertex aid row).xorLeaf row.leaf (rowHash aid seq)).bump (cRows row.origin) 1
  | some p =>
    ((((db.putVertex aid row).xorLeaf row.leaf (rowHash aid (.int p.seq))).xorLeaf row.leaf
      (rowHash aid seq)).vacate p.origin).bump (cRows row.origin) 1

/-- An edge row is accepted in place of whatever its key held; `h` is the hash XORed in. -/
def acceptEdge (db : Store) (key : EdgeKey) (label : String) (row : ERow) (h : ℕ) : Store :=
  match db.edge.lookup key with
  | none =>
    ((((db.putEdge key row).xorLeaf row.leaf h).bump cEdgeTotal 1).bump (cEdgeLabel label) 1).bump
      (cRows row.origin) 1
  | some o =>
    ((((db.putEdge key row).xorLeaf row.leaf (contentHash key (edgeRowContent o))).xorLeaf row.leaf
      h).vacate o.origin).bump (cRows row.origin) 1

def retireEdge (db : Store) (key : EdgeKey) (label : String) (leaf : ℕ) (r : ERow) : Store :=
  (((({ db with edge := db.edge.erase key }).xorLeaf leaf
    (contentHash key (edgeRowContent r))).bump cEdgeTotal (-1)).bump (cEdgeLabel label) (-1)).vacate
    r.origin

/-- A vertex row leaves its table; what it owes is settled by `settleVertex`. -/
def eraseVertex (db : Store) (aid : String) : Store := { db with vertex := db.vertex.erase aid }

/-- The merkle contribution and, when accounted, the proper time of an erased vertex. -/
def settleVertex (db : Store) (aid : String) (r : VRow) : Bool → Store
  | true => ((db.xorLeaf r.leaf (rowHash aid (.int r.seq))).bump cVertexTotal (-1)).vacate r.origin
  | false => (db.xorLeaf r.leaf (rowHash aid (.int r.seq))).bump cVertexTotal (-1)

/-- A document is rewritten in place: version and leaf stay. -/
def patchVertex (db : Store) (aid : String) (r : VRow) (doc : JsonCol) : Store :=
  { db with vertex := db.vertex.insert aid { r with doc := doc } }

theorem acceptVertex_tables (db : Store) (aid : String) (row : VRow) (seq : Val) :
    (db.acceptVertex aid row seq).vertex = db.vertex.insert aid row ∧
      (db.acceptVertex aid row seq).edge = db.edge := by
  unfold acceptVertex
  split <;> exact ⟨rfl, rfl⟩

theorem acceptEdge_tables (db : Store) (key : EdgeKey) (label : String) (row : ERow) (h : ℕ) :
    (db.acceptEdge key label row h).edge = db.edge.insert key row ∧
      (db.acceptEdge key label row h).vertex = db.vertex := by
  unfold acceptEdge
  split <;> exact ⟨rfl, rfl⟩

end Store

/-! ### Transitions inside a transaction -/

/-- Which rows a run may accept, which numbers it may observe, and whether it may evict or rewrite in place. -/
structure Adm where
  consumedVertex : String → VRow → Val → Prop
  authoredVertex : String → VRow → Prop
  consumedEdge : EdgeKey → ERow → ℕ → Prop
  authoredEdge : EdgeKey → ERow → ℕ → Prop
  observed : String → ℤ → Prop
  evict : Prop
  patch : Prop

/-- The sequence number the allocator handed out last. -/
def Node.issued (n : Node) : ℤ := n.cache.getD (n.db.load n.origin)

def Node.EdgeLeaves (n : Node) (leaves : ℕ+) : Prop :=
  leaves = n.leaves ∨ leaves = n.graphLeaves ∨ n.face = some leaves

/-- One edge row retired, or a counter outside the accounting moved. -/
inductive Retire : Node → Node → Prop
  | edge {n : Node} {key : EdgeKey} {label : String} {r : ERow} {leaves : ℕ+}
      (hr : n.db.edge.lookup key = some r) (hl : n.EdgeLeaves leaves) :
      Retire n { n with db := n.db.retireEdge key label (leafOf (keyHex key) leaves) r }
  | bump {n : Node} {name : String} {delta : ℤ} (h : OffLedger name) :
      Retire n { n with db := n.db.bump name delta }

/-- What a single change inside a transaction can be. -/
inductive Micro (A : Adm) : Node → Node → Prop
  | retire {n n' : Node} (h : Retire n n') : Micro A n n'
  | observe {n : Node} {origin : String} {seq : ℤ} (h : A.observed origin seq) :
      Micro A n { n with db := n.db.observe origin seq }
  | task {n : Node} {t : Table String TaskRow} : Micro A n { n with db := { n.db with task := t } }
  | patch {n : Node} {aid : String} {r : VRow} {doc : JsonCol} (hA : A.patch)
      (hr : n.db.vertex.lookup aid = some r) :
      Micro A n { n with db := n.db.patchVertex aid r doc }
  | env {n : Node} {face : Option ℕ+} {unplaced : ℕ} {dirty : Bool}
      (hf : face = n.face ∨ n.face = none ∧ face = some n.leaves)
      (hd : n.dirty = true → dirty = true) :
      Micro A n { n with face := face, unplaced := unplaced, dirty := dirty }
  | authorVertex {n : Node} {aid : String} {row : VRow} (ha : A.authoredVertex aid row)
      (ho : row.origin = n.origin) (hs : row.seq = n.issued + 1)
      (hl : row.leaf = leafOf aid n.leaves) :
      Micro A n { n with
        db := n.db.acceptVertex aid row (.int row.seq), cache := some row.seq, dirty := true }
  | consumeVertex {n : Node} {aid : String} {row : VRow} {seq : Val}
      (ha : A.consumedVertex aid row seq) (hs : seq.asInt = some row.seq)
      (ho : ∃ r, n.db.seqCounter.lookup row.origin = some r ∧ row.seq ≤ r.lastSeq)
      (hl : row.leaf = leafOf aid n.leaves) :
      Micro A n { n with db := n.db.acceptVertex aid row seq }
  | authorEdge {n : Node} {key : EdgeKey} {label : String} {row : ERow} {h : ℕ} {leaves : ℕ+}
      (ha : A.authoredEdge key row h) (ho : row.origin = n.origin) (hs : row.seq = n.issued + 1)
      (hl : row.leaf = leafOf (keyHex key) leaves) (hL : n.EdgeLeaves leaves) :
      Micro A n { n with
        db := n.db.acceptEdge key label row h, cache := some row.seq, dirty := true }
  | consumeEdge {n : Node} {key : EdgeKey} {label : String} {row : ERow} {h : ℕ} {leaves : ℕ+}
      (ha : A.consumedEdge key row h)
      (ho : ∃ r, n.db.seqCounter.lookup row.origin = some r ∧ row.seq ≤ r.lastSeq)
      (hl : row.leaf = leafOf (keyHex key) leaves) (hL : n.EdgeLeaves leaves) :
      Micro A n { n with db := n.db.acceptEdge key label row h }
  | drop {n n' : Node} {aid : String} {r : VRow} (hr : n.db.vertex.lookup aid = some r)
      (h : Relation.ReflTransGen Retire { n with db := n.db.eraseVertex aid } n') :
      Micro A n { n' with db := n'.db.settleVertex aid r true }
  | evict {n : Node} {aid : String} {r : VRow} (hA : A.evict)
      (hr : n.db.vertex.lookup aid = some r) :
      Micro A n { n with db := (n.db.eraseVertex aid).settleVertex aid r false }

/-- Any number of changes. -/
abbrev Micros (A : Adm) : Node → Node → Prop := Relation.ReflTransGen (Micro A)

/-! ### What never changes -/

/-- The parts of a node that no operation changes; and the graph face, once built, stays. -/
structure SameEnv (n n' : Node) : Prop where
  origin : n'.origin = n.origin
  leaves : n'.leaves = n.leaves
  graphLeaves : n'.graphLeaves = n.graphLeaves
  inTxn : n'.inTxn = n.inTxn
  face : n'.face = n.face ∨ n.face = none ∧ n'.face = some n.leaves
  dirty : n.dirty = true → n'.dirty = true

theorem SameEnv.refl (n : Node) : SameEnv n n := ⟨rfl, rfl, rfl, rfl, .inl rfl, id⟩

theorem SameEnv.trans {a b c : Node} (h : SameEnv a b) (h' : SameEnv b c) : SameEnv a c where
  origin := h'.origin.trans h.origin
  leaves := h'.leaves.trans h.leaves
  graphLeaves := h'.graphLeaves.trans h.graphLeaves
  inTxn := h'.inTxn.trans h.inTxn
  dirty := fun hd => h'.dirty (h.dirty hd)
  face := by
    rcases h'.face with h2 | ⟨h2, h3⟩
    · rw [h2]
      exact h.face
    · rcases h.face with h1 | ⟨-, h4⟩
      · exact .inr ⟨h1 ▸ h2, by rw [h3, h.leaves]⟩
      · rw [h4] at h2
        cases h2

theorem SameEnv.db (n : Node) (db : Store) : SameEnv n { n with db := db } :=
  ⟨rfl, rfl, rfl, rfl, .inl rfl, id⟩

theorem SameEnv.alloc (n : Node) (c : Option ℤ) : SameEnv n { n with cache := c, dirty := true } :=
  ⟨rfl, rfl, rfl, rfl, .inl rfl, fun _ => rfl⟩

theorem Node.EdgeLeaves.of_sameEnv {n n' : Node} {leaves : ℕ+} (h : n.EdgeLeaves leaves)
    (he : SameEnv n n') : n'.EdgeLeaves leaves := by
  rcases h with h | h | h
  · exact .inl (h.trans he.leaves.symm)
  · exact .inr (.inl (h.trans he.graphLeaves.symm))
  · rcases he.face with hf | ⟨hf, -⟩
    · exact .inr (.inr (hf.trans h))
    · rw [h] at hf
      cases hf

theorem Retire.sameEnv {n n' : Node} (h : Retire n n') : SameEnv n n' := by
  cases h <;> exact SameEnv.db _ _

theorem retires_sameEnv {n n' : Node} (h : Relation.ReflTransGen Retire n n') : SameEnv n n' := by
  induction h with
  | refl => exact SameEnv.refl _
  | tail _ hs ih => exact ih.trans hs.sameEnv

theorem Micro.sameEnv {A : Adm} {n n' : Node} (h : Micro A n n') : SameEnv n n' := by
  cases h with
  | retire h => exact h.sameEnv
  | env hf hd => exact ⟨rfl, rfl, rfl, rfl, hf, hd⟩
  | authorVertex => exact (SameEnv.alloc n _).trans (SameEnv.db _ _)
  | authorEdge => exact (SameEnv.alloc n _).trans (SameEnv.db _ _)
  | @drop n₁ aid r hr h =>
    have h1 := SameEnv.db n (n.db.eraseVertex aid)
    have h2 := (h1.trans (retires_sameEnv h)).trans (SameEnv.db n₁ (n₁.db.settleVertex aid r true))
    exact h2
  | _ => exact SameEnv.db _ _

theorem micros_sameEnv {A : Adm} {n n' : Node} (h : Micros A n n') : SameEnv n n' := by
  induction h with
  | refl => exact SameEnv.refl _
  | tail _ hs ih => exact ih.trans hs.sameEnv

/-! ### Transactions -/

def Node.begin (n : Node) : Node := { n with cache := none, dirty := false, inTxn := true }

/-- The node after the transaction's allocator and depth are reset. -/
def Node.end (n : Node) : Node := { n with cache := none, dirty := false, inTxn := false }

def Node.flushed (n : Node) : Node :=
  match n.dirty, n.cache with
  | true, some c => { n with db := n.db.persist n.origin c, dirty := false }
  | _, _ => n

/-- What one operation outside a transaction can do: commit a transaction whose allocator is either
clean or holds a cached counter, or abort one. -/
inductive Step (A : Adm) : Node → Node → Prop
  | commit {n m : Node} (h : Micros A n.begin m) (hc : m.dirty = true → m.cache.isSome) :
      Step A n m.flushed.end
  | abort {n m : Node} (h : SameEnv n.begin m) : Step A n { m with db := n.db }.end

abbrev Steps (A : Adm) : Node → Node → Prop := Relation.ReflTransGen (Step A)

theorem steps_induct {A : Adm} {I : Node → Prop} (hstep : ∀ n n', I n → Step A n n' → I n')
    {n n' : Node} (h : Steps A n n') (hn : I n) : I n' := by
  induction h with
  | refl => exact hn
  | tail _ hs ih => exact hstep _ _ ih hs

theorem micros_induct {A : Adm} {I : Node → Prop} (hstep : ∀ n n', I n → Micro A n n' → I n')
    {n n' : Node} (h : Micros A n n') (hn : I n) : I n' := by
  induction h with
  | refl => exact hn
  | tail _ hs ih => exact hstep _ _ ih hs

end Mantle
