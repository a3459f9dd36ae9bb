import Mantle.Mesh.Publish

/-!
# Mantle.Mesh.Describe — when the advertised digest describes the object

The digest subtracts the rows it leaves out, the object filters them; the two lists of reasons are not the same.
-/

namespace Mantle

open Tx

/-! ### Where the two agree -/

/-- The artifact is published: it is here, its type replicates and it is not withheld. -/
def Goes (W : String → Prop) (db : Store) (x : String) : Prop :=
  ∃ d, docOf db x = some d ∧ isReplicated (d.get "content_type") = true ∧ ¬W x

/-- The leaf holds no row that is both operational and withheld, no row whose type is banned by its name alone, no edge
toward an endpoint that is not published. -/
structure CleanLeaf (W : String → Prop) (db : Store) (L : ℕ+) (i : ℕ) : Prop where
  once : ∀ id r, db.vertex.lookup id = some r → leafOf id L = i → r.operational = true → ¬W id
  banned : ∀ id r, db.vertex.lookup id = some r → leafOf id L = i →
    isReplicated (r.doc.val.get "content_type") = false → r.operational = true ∨ W id
  edges : ∀ key r, db.edge.lookup key = some r → leafOf (keyHex key) L = i →
    Goes W db r.src ∧ Goes W db r.dst

section Agree

variable {db db₁ : Store} {w w₁ : List String} {L : ℕ+} {i : ℕ} {row : VRow}

end Agree

/-! ### Writing the cursor -/

/-- What the write of an operational document leaves: its row, and the other rows as they were. -/
structure OpWritten (id : String) (d : Doc) (L : ℕ+) (row : VRow) (db db' : Store) : Prop where
  vertex : db'.vertex = db.vertex.insert id row
  edge : db'.edge = db.edge
  ct : row.ct = .str s3syncCt
  leaf : row.leaf = leafOf id L
  seq : row.seq = 1
  docSeq : row.doc.val.get "_seq" = .int 1
  doc : ∀ k, k ∉ stampKeys → row.doc.val.get k = (d.get k).norm
  normal : row.doc.val.norm = row.doc.val

theorem OpWritten.documented {id : String} {d : Doc} {L : ℕ+} {row : VRow} {db db' : Store}
    (h : OpWritten id d L row db db') (hd : OpShaped id d) (hne : id ≠ "") (hdb : Documented db) :
    Documented db' := by
  refine hdb.insertRow h.vertex h.edge hne ?_ (by rw [h.docSeq, h.seq]) h.normal ?_
  · rw [h.doc "id" (by decide), hd.id]
    rfl
  · rw [h.ct, h.doc "content_type" (by decide), hd.type]
    exact ⟨rfl, .inr ⟨_, rfl⟩⟩

theorem OpWritten.operational {id : String} {d : Doc} {L : ℕ+} {row : VRow} {db db' : Store}
    (h : OpWritten id d L row db db') : row.operational = true := by
  unfold VRow.operational
  rw [h.ct]
  decide

theorem operational_neutral {r : VRow} (h : r.operational = true) :
    r.isGrant = false ∧ r.isCollection = false := by
  obtain ⟨ct, hct, heq⟩ := List.any_eq_true.mp h
  have hneutral : ∀ ct ∈ opExclude, (Val.str ct).eqStr grantContentType = false ∧
      (Val.str ct).eqStr collectionContentType = false := by decide +kernel
  unfold VRow.isGrant VRow.isCollection
  rw [eqStr_iff.mp heq]
  exact hneutral ct hct

theorem OpWritten.withheld {id : String} {d : Doc} {L : ℕ+} {row : VRow} {db db' : Store}
    (h : OpWritten id d L row db db') (hold : ∀ r, db.vertex.lookup id = some r → r.operational = true)
    (now : Val → Bool) {x : String} (hx : x ≠ id) : Withheld now db' x ↔ Withheld now db x := by
  have hlook : ∀ y, y ≠ id → db'.vertex.lookup y = db.vertex.lookup y := by
    intro y hy
    rw [h.vertex, AList.lookup_insert_ne hy]
  have hself : db'.vertex.lookup id = some row := by rw [h.vertex, AList.lookup_insert]
  have hnew := operational_neutral h.operational
  refine withheld_congr ?_ ?_ (by rw [hlook x hx])
  · intro y
    by_cases hy : y = id
    · subst hy
      unfold grantAt
      rw [hself]
      cases hr : db.vertex.lookup y with
      | none => simp [hnew.1]
      | some r => simp [hnew.1, (operational_neutral (hold r hr)).1]
    · unfold grantAt
      rw [hlook y hy]
  · funext u v
    unfold CollectionStep
    rw [h.edge]
    by_cases hv : v = id
    · subst hv
      have hno : ∀ r, db.vertex.lookup v = some r → ¬r.ct.eqStr collectionContentType = true := by
        intro r hr hc
        exact absurd (operational_neutral (hold r hr)).2 (by rw [show r.isCollection = true from hc]; simp)
      have hno' : ¬row.ct.eqStr collectionContentType = true := by
        intro hc
        exact absurd hnew.2 (by rw [show row.isCollection = true from hc]; simp)
      refine propext ⟨?_, ?_⟩
      · rintro ⟨⟨r, hr, hct⟩, -⟩
        rw [hself] at hr
        cases hr
        exact absurd hct hno'
      · rintro ⟨⟨r, hr, hct⟩, -⟩
        exact absurd hct (hno r hr)
    · rw [hlook v hv]

/-! ### Uploading -/

structure SameButLeaf (db db' : Store) : Prop where
  vertex : ∀ id, ∃ leaf, db'.vertex.lookup id =
    (db.vertex.lookup id).map fun r => { r with leaf := leaf }
  edge : ∀ key, ∃ leaf, db'.edge.lookup key = (db.edge.lookup key).map fun r => { r with leaf := leaf }

section SameButLeaf

variable {db db' : Store}

theorem SameButLeaf.refl (db : Store) : SameButLeaf db db where
  vertex id := by
    cases h : db.vertex.lookup id with
    | none => exact ⟨0, rfl⟩
    | some r => exact ⟨r.leaf, rfl⟩
  edge key := by
    cases h : db.edge.lookup key with
    | none => exact ⟨0, rfl⟩
    | some r => exact ⟨r.leaf, rfl⟩

theorem SameButLeaf.row (h : SameButLeaf db db') {id : String} {r : VRow}
    (hr : db'.vertex.lookup id = some r) :
    ∃ r₀ leaf, db.vertex.lookup id = some r₀ ∧ r = { r₀ with leaf := leaf } := by
  obtain ⟨leaf, hl⟩ := h.vertex id
  rw [hl] at hr
  obtain ⟨r₀, hr₀, rfl⟩ := Option.map_eq_some_iff.mp hr
  exact ⟨r₀, leaf, hr₀, rfl⟩

theorem SameButLeaf.edgeRow (h : SameButLeaf db db') {key : EdgeKey} {r : ERow}
    (hr : db'.edge.lookup key = some r) :
    ∃ r₀ leaf, db.edge.lookup key = some r₀ ∧ r = { r₀ with leaf := leaf } := by
  obtain ⟨leaf, hl⟩ := h.edge key
  rw [hl] at hr
  obtain ⟨r₀, hr₀, rfl⟩ := Option.map_eq_some_iff.mp hr
  exact ⟨r₀, leaf, hr₀, rfl⟩

theorem SameButLeaf.documented (h : SameButLeaf db db') (hdoc : Documented db) : Documented db' where
  named id r hr := by
    obtain ⟨r₀, leaf, hr₀, rfl⟩ := h.row hr
    exact hdoc.named id r₀ hr₀
  numbered id r hr := by
    obtain ⟨r₀, leaf, hr₀, rfl⟩ := h.row hr
    exact hdoc.numbered id r₀ hr₀
  normal id r hr := by
    obtain ⟨r₀, leaf, hr₀, rfl⟩ := h.row hr
    exact hdoc.normal id r₀ hr₀
  typed id r hr := by
    obtain ⟨r₀, leaf, hr₀, rfl⟩ := h.row hr
    exact hdoc.typed id r₀ hr₀
  keyed key r hr := by
    obtain ⟨r₀, leaf, hr₀, rfl⟩ := h.edgeRow hr
    exact hdoc.keyed key r₀ hr₀
  plain key r hr := by
    obtain ⟨r₀, leaf, hr₀, rfl⟩ := h.edgeRow hr
    exact hdoc.plain key r₀ hr₀
  flagged key r hr := by
    obtain ⟨r₀, leaf, hr₀, rfl⟩ := h.edgeRow hr
    exact hdoc.flagged key r₀ hr₀
  settled key r hr := by
    obtain ⟨r₀, leaf, hr₀, rfl⟩ := h.edgeRow hr
    exact hdoc.settled key r₀ hr₀
  bound key r hr := by
    obtain ⟨r₀, leaf, hr₀, rfl⟩ := h.edgeRow hr
    exact hdoc.bound key r₀ hr₀

theorem SameButLeaf.docOf (h : SameButLeaf db db') (x : String) :
    Mantle.docOf db' x = Mantle.docOf db x := by
  obtain ⟨leaf, hl⟩ := h.vertex x
  unfold Mantle.docOf
  rw [hl]
  cases db.vertex.lookup x <;> rfl

theorem SameButLeaf.symm (h : SameButLeaf db db') : SameButLeaf db' db where
  vertex id := by
    obtain ⟨leaf, hl⟩ := h.vertex id
    rw [hl]
    cases hr : db.vertex.lookup id with
    | none => exact ⟨0, rfl⟩
    | some r => exact ⟨r.leaf, rfl⟩
  edge key := by
    obtain ⟨leaf, hl⟩ := h.edge key
    rw [hl]
    cases hr : db.edge.lookup key with
    | none => exact ⟨0, rfl⟩
    | some r => exact ⟨r.leaf, rfl⟩

theorem SameButLeaf.withheld (h : SameButLeaf db db') (now : Val → Bool) (x : String) :
    Withheld now db' x ↔ Withheld now db x := by
  refine withheld_congr ?_ ?_ ?_
  · intro id
    obtain ⟨leaf, hl⟩ := h.vertex id
    unfold grantAt
    rw [hl]
    cases db.vertex.lookup id <;> rfl
  · -- a step reads the type of the row and the columns of the edge
    have hinto : ∀ {a b : Store}, SameButLeaf a b → ∀ u v, CollectionStep b u v →
        CollectionStep a u v := by
      rintro a b hab u v ⟨⟨r, hr, hct⟩, key, e, he, hd, hlab, ho, hs⟩
      obtain ⟨r₀, leaf, hr₀, rfl⟩ := hab.row hr
      obtain ⟨e₀, leaf', he₀, rfl⟩ := hab.edgeRow he
      exact ⟨⟨r₀, hr₀, hct⟩, key, e₀, he₀, hd, hlab, ho, hs⟩
    funext u v
    exact propext ⟨hinto h u v, hinto h.symm u v⟩
  · obtain ⟨leaf, hl⟩ := h.vertex x
    rw [hl]
    cases db.vertex.lookup x <;> rfl

theorem SameButLeaf.clean (h : SameButLeaf db db') {W W' : String → Prop} (hW : ∀ x, W' x ↔ W x)
    {L : ℕ+} {i : ℕ} (hclean : CleanLeaf W db L i) : CleanLeaf W' db' L i where
  once id r hr hi hop := by
    obtain ⟨r₀, leaf, hr₀, rfl⟩ := h.row hr
    rw [hW]
    exact hclean.once id r₀ hr₀ hi hop
  banned id r hr hi hrep := by
    obtain ⟨r₀, leaf, hr₀, rfl⟩ := h.row hr
    rw [hW]
    exact hclean.banned id r₀ hr₀ hi hrep
  edges key r hr hi := by
    obtain ⟨r₀, leaf, hr₀, rfl⟩ := h.edgeRow hr
    have hgoes : ∀ x, Goes W db x → Goes W' db' x := by
      rintro x ⟨d, hd, hrep, hout⟩
      exact ⟨d, (h.docOf x).trans hd, hrep, (hW x).not.mpr hout⟩
    obtain ⟨hs, hd⟩ := hclean.edges key r₀ hr₀ hi
    exact ⟨hgoes _ hs, hgoes _ hd⟩

end SameButLeaf

section Published

variable {now : Val → Bool} {late : ℕ → Bool} {leaves : ℤ} {plane plane' : Plane} {n n' : Node}
  {live : List ℤ} {changed : List ℕ}

end Published

end Mantle
