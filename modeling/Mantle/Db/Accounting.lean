import Mathlib.Order.Interval.Finset.Basic
import Mathlib.Data.Int.Interval
import Mantle.Db.Run

/-!
# Mantle.Db.Accounting — proper time is accounted for

For the local origin, rows plus vacated numbers are exactly the numbers issued; for any other they count the writes
made under that origin.
-/

namespace Mantle

open Relation

variable {A : Adm} {db : Store} {s : ℤ}

variable {o x : String}

/-! ### What the changes do to one origin's ledger -/

namespace Store

variable {aid : String} {r : VRow}

variable {db : Store} {delta : ℤ} {name o : String}

/-- The version a row carries; rows of both tables share one counter. -/
def version (db : Store) : String ⊕ EdgeKey → Option (String × ℤ)
  | .inl id => (db.vertex.lookup id).map fun r => (r.origin, r.seq)
  | .inr key => (db.edge.lookup key).map fun r => (r.origin, r.seq)

/-- One for a row of the origin, zero for any other. -/
def mark (o x : String) : ℤ := if x = o then 1 else 0

/-- The number of vertex and edge rows carrying an origin. -/
def rowsOf (db : Store) (o : String) : ℤ :=
  Table.sumBy (fun _ r => mark o r.origin) db.vertex + Table.sumBy (fun _ r => mark o r.origin) db.edge

/-- Rows and vacated numbers of an origin. -/
def ledgerSum (db : Store) (o : String) : ℤ := db.rowsOf o + db.counterOf (cVacated o)

def counterSum (db : Store) (o : String) : ℤ := db.counterOf (cRows o) + db.counterOf (cVacated o)

theorem counterOf_bump_offLedger (h : OffLedger name) (o : String) :
    (db.bump name delta).counterOf (cRows o) = db.counterOf (cRows o) ∧
      (db.bump name delta).counterOf (cVacated o) = db.counterOf (cVacated o) := by
  rw [counterOf_bump, counterOf_bump, if_neg (h o).1.symm, if_neg (h o).2.symm]
  exact ⟨add_zero _, add_zero _⟩

theorem vacated_bump_rows (db : Store) (delta : ℤ) (x o : String) :
    (db.bump (cRows x) delta).counterOf (cVacated o) = db.counterOf (cVacated o) := by
  rw [counterOf_bump, if_neg (cRows_ne_cVacated x o).symm, add_zero]

theorem rows_bump_rows (db : Store) (delta : ℤ) (x o : String) :
    (db.bump (cRows x) delta).counterOf (cRows o) =
      db.counterOf (cRows o) + if x = o then delta else 0 := by
  rw [counterOf_bump]
  by_cases h : x = o
  · rw [if_pos h, if_pos (by rw [h])]
  · rw [if_neg h, if_neg fun hc => h (cRows_injective hc).symm]

theorem vacate_counter (db : Store) (x : String) : (db.vacate x).counter =
    if x = "" then db.counter else ((db.bump (cRows x) (-1)).bump (cVacated x) 1).counter := rfl

theorem vacated_vacate (db : Store) (x : String) (ho : o ≠ "") :
    (db.vacate x).counterOf (cVacated o) = db.counterOf (cVacated o) + mark o x := by
  unfold mark
  have hc := vacate_counter db x
  by_cases hx : x = ""
  · have hxo : x ≠ o := fun h => ho (h ▸ hx)
    rw [if_pos hx] at hc
    rw [if_neg hxo, add_zero, counterOf_congr hc]
  · rw [if_neg hx] at hc
    rw [counterOf_congr hc, counterOf_bump, vacated_bump_rows]
    by_cases h : x = o
    · rw [if_pos h, if_pos (by rw [h])]
    · rw [if_neg h, if_neg fun hc' => h (cVacated_injective hc').symm]

theorem counterSum_vacate (db : Store) (x o : String) :
    (db.vacate x).counterSum o = db.counterSum o := by
  unfold counterSum
  have hc := vacate_counter db x
  by_cases hx : x = ""
  · rw [if_pos hx] at hc
    rw [counterOf_congr hc, counterOf_congr hc]
  · rw [if_neg hx] at hc
    rw [counterOf_congr hc, counterOf_congr hc, counterOf_bump _ _ _ (cRows o), rows_bump_rows,
      counterOf_bump _ _ _ (cVacated o), vacated_bump_rows, if_neg (cRows_ne_cVacated o x)]
    by_cases h : x = o
    · rw [if_pos h, if_pos (by rw [h])]
      omega
    · rw [if_neg h, if_neg fun hc' => h (cVacated_injective hc').symm]
      omega

theorem counterSum_bump_rows (db : Store) (x o : String) :
    (db.bump (cRows x) 1).counterSum o = db.counterSum o + mark o x := by
  unfold counterSum mark
  rw [rows_bump_rows, vacated_bump_rows]
  omega

theorem counterSum_bump (h : OffLedger name) (o : String) :
    (db.bump name delta).counterSum o = db.counterSum o := by
  unfold counterSum
  rw [(counterOf_bump_offLedger h o).1, (counterOf_bump_offLedger h o).2]

theorem counterSum_acceptVertex (db : Store) (aid : String) (row : VRow) (seq : Val) (o : String) :
    (db.acceptVertex aid row seq).counterSum o = db.counterSum o + mark o row.origin := by
  unfold acceptVertex
  split
  · rw [counterSum_bump_rows]
    rfl
  · rw [counterSum_bump_rows, counterSum_vacate]
    rfl

theorem counterSum_acceptEdge (db : Store) (key : EdgeKey) (label : String) (row : ERow) (h : ℕ)
    (o : String) :
    (db.acceptEdge key label row h).counterSum o = db.counterSum o + mark o row.origin := by
  unfold acceptEdge
  split
  · rw [counterSum_bump_rows, counterSum_bump (offLedger_edgeLabel _),
      counterSum_bump offLedger_edgeTotal]
    rfl
  · rw [counterSum_bump_rows, counterSum_vacate]
    rfl

theorem counterSum_retireEdge (db : Store) (key : EdgeKey) (label : String) (leaf : ℕ) (r : ERow)
    (o : String) : (db.retireEdge key label leaf r).counterSum o = db.counterSum o := by
  unfold retireEdge
  rw [counterSum_vacate, counterSum_bump (offLedger_edgeLabel _),
    counterSum_bump offLedger_edgeTotal]
  rfl

theorem counterSum_settleVertex (db : Store) (aid : String) (r : VRow) (accounted : Bool)
    (o : String) :
    (db.settleVertex aid r accounted).counterSum o = db.counterSum o := by
  cases accounted with
  | true =>
    change (Store.vacate _ _).counterSum o = _
    rw [counterSum_vacate, counterSum_bump offLedger_vertexTotal]
    rfl
  | false =>
    change (Store.bump _ _ _).counterSum o = _
    rw [counterSum_bump offLedger_vertexTotal]
    rfl

theorem counterOf_empty (o : String) : Store.empty.counterOf (cRows o) = 0 ∧
    Store.empty.counterOf (cVacated o) = 0 := by
  have h1 := offLedger_listIndexBuilt o
  have h2 := offLedger_edgeLabelBuilt o
  unfold counterOf Store.empty
  simp only
  rw [Table.lookup_insert_of, if_neg h2.1.symm, Table.lookup_insert_of, if_neg h1.1.symm,
    Table.lookup_insert_of, if_neg h2.2.symm, Table.lookup_insert_of, if_neg h1.2.symm]
  exact ⟨rfl, rfl⟩

/-! The same changes, counting the rows themselves. -/

theorem ledgerSum_acceptVertex (db : Store) (aid : String) (row : VRow) (seq : Val) (ho : o ≠ "") :
    (db.acceptVertex aid row seq).ledgerSum o = db.ledgerSum o + mark o row.origin := by
  have hrows : (db.acceptVertex aid row seq).rowsOf o = db.rowsOf o
      - Table.weightAt (fun _ r => mark o r.origin) db.vertex aid + mark o row.origin := by
    have hv : (db.acceptVertex aid row seq).vertex = db.vertex.insert aid row ∧
        (db.acceptVertex aid row seq).edge = db.edge := by
      unfold acceptVertex
      split <;> exact ⟨rfl, rfl⟩
    unfold rowsOf
    rw [hv.1, hv.2, Table.sumBy_insert]
    omega
  unfold ledgerSum
  rw [hrows]
  unfold acceptVertex
  cases hp : db.vertex.lookup aid with
  | none =>
    rw [Table.weightAt_none hp]
    simp only [vacated_bump_rows, counterOf_xorLeaf, counterOf_putVertex]
    omega
  | some p =>
    rw [Table.weightAt_some hp]
    simp only [vacated_bump_rows, vacated_vacate _ _ ho, counterOf_xorLeaf, counterOf_putVertex]
    omega

theorem ledgerSum_acceptEdge (db : Store) (key : EdgeKey) (label : String) (row : ERow) (h : ℕ)
    (ho : o ≠ "") :
    (db.acceptEdge key label row h).ledgerSum o = db.ledgerSum o + mark o row.origin := by
  have hrows : (db.acceptEdge key label row h).rowsOf o = db.rowsOf o
      - Table.weightAt (fun _ r => mark o r.origin) db.edge key + mark o row.origin := by
    have hv : (db.acceptEdge key label row h).edge = db.edge.insert key row ∧
        (db.acceptEdge key label row h).vertex = db.vertex := by
      unfold acceptEdge
      split <;> exact ⟨rfl, rfl⟩
    unfold rowsOf
    rw [hv.1, hv.2, Table.sumBy_insert]
    omega
  unfold ledgerSum
  rw [hrows]
  unfold acceptEdge
  cases hp : db.edge.lookup key with
  | none =>
    rw [Table.weightAt_none hp]
    simp only [vacated_bump_rows]
    rw [(counterOf_bump_offLedger (offLedger_edgeLabel _) o).2,
      (counterOf_bump_offLedger offLedger_edgeTotal o).2, counterOf_xorLeaf, counterOf_putEdge]
    omega
  | some p =>
    rw [Table.weightAt_some hp]
    simp only [vacated_bump_rows, vacated_vacate _ _ ho, counterOf_xorLeaf, counterOf_putEdge]
    omega

theorem ledgerSum_retireEdge {key : EdgeKey} {r : ERow} (hr : db.edge.lookup key = some r)
    (label : String) (leaf : ℕ) (ho : o ≠ "") :
    (db.retireEdge key label leaf r).ledgerSum o = db.ledgerSum o := by
  have hrows : (db.retireEdge key label leaf r).rowsOf o = db.rowsOf o - mark o r.origin := by
    have hv : (db.retireEdge key label leaf r).rowsOf o =
        Table.sumBy (fun _ r => mark o r.origin) db.vertex +
          Table.sumBy (fun _ r => mark o r.origin) (db.edge.erase key) := rfl
    rw [hv, Table.sumBy_erase, Table.weightAt_some hr]
    unfold rowsOf
    omega
  unfold ledgerSum
  rw [hrows]
  unfold retireEdge
  rw [vacated_vacate _ _ ho, (counterOf_bump_offLedger (offLedger_edgeLabel _) o).2,
    (counterOf_bump_offLedger offLedger_edgeTotal o).2, counterOf_xorLeaf]
  have hc : ({ db with edge := db.edge.erase key } : Store).counterOf (cVacated o) =
      db.counterOf (cVacated o) := rfl
  omega

theorem ledgerSum_eraseVertex (hr : db.vertex.lookup aid = some r) (o : String) :
    (db.eraseVertex aid).ledgerSum o = db.ledgerSum o - mark o r.origin := by
  have hv : (db.eraseVertex aid).ledgerSum o =
      Table.sumBy (fun _ r => mark o r.origin) (db.vertex.erase aid) +
        Table.sumBy (fun _ r => mark o r.origin) db.edge + db.counterOf (cVacated o) := rfl
  rw [hv, Table.sumBy_erase, Table.weightAt_some hr]
  unfold ledgerSum rowsOf
  omega

theorem ledgerSum_settleVertex (db : Store) (aid : String) (r : VRow) (ho : o ≠ "") :
    (db.settleVertex aid r true).ledgerSum o = db.ledgerSum o + mark o r.origin := by
  unfold settleVertex ledgerSum
  have hrows : (((db.xorLeaf r.leaf (rowHash aid (.int r.seq))).bump cVertexTotal (-1)).vacate
      r.origin).rowsOf o = db.rowsOf o := by
    unfold rowsOf vacate bump xorLeaf
    rfl
  rw [hrows, vacated_vacate _ _ ho, (counterOf_bump_offLedger offLedger_vertexTotal o).2,
    counterOf_xorLeaf]
  omega

theorem ledgerSum_bump (h : OffLedger name) (o : String) :
    (db.bump name delta).ledgerSum o = db.ledgerSum o := by
  unfold ledgerSum
  rw [(counterOf_bump_offLedger h o).2]
  rfl

theorem ledgerSum_patchVertex (hr : db.vertex.lookup aid = some r) (doc : JsonCol) (o : String) :
    (db.patchVertex aid r doc).ledgerSum o = db.ledgerSum o := by
  have hv : (db.patchVertex aid r doc).ledgerSum o =
      Table.sumBy (fun _ r => mark o r.origin) (db.vertex.insert aid { r with doc := doc }) +
        Table.sumBy (fun _ r => mark o r.origin) db.edge + db.counterOf (cVacated o) := rfl
  rw [hv, Table.sumBy_insert, Table.weightAt_some hr]
  unfold ledgerSum rowsOf
  simp only
  omega

end Store

/-! ### Which rows carry which versions -/

namespace Store

variable {a : String ⊕ EdgeKey} {v : String × ℤ}

theorem version_acceptVertex (db : Store) (aid : String) (row : VRow) (seq : Val)
    (a : String ⊕ EdgeKey) :
    (db.acceptVertex aid row seq).version a =
      if a = .inl aid then some (row.origin, row.seq) else db.version a := by
  have hv : (db.acceptVertex aid row seq).vertex = db.vertex.insert aid row ∧
      (db.acceptVertex aid row seq).edge = db.edge := by
    unfold acceptVertex
    split <;> exact ⟨rfl, rfl⟩
  cases a with
  | inl id =>
    simp only [version, hv.1, Table.lookup_insert_of, Sum.inl.injEq]
    split_ifs <;> rfl
  | inr key => simp [version, hv.2]

theorem version_acceptEdge (db : Store) (key : EdgeKey) (label : String) (row : ERow) (h : ℕ)
    (a : String ⊕ EdgeKey) :
    (db.acceptEdge key label row h).version a =
      if a = .inr key then some (row.origin, row.seq) else db.version a := by
  have hv : (db.acceptEdge key label row h).edge = db.edge.insert key row ∧
      (db.acceptEdge key label row h).vertex = db.vertex := by
    unfold acceptEdge
    split <;> exact ⟨rfl, rfl⟩
  cases a with
  | inl id => simp [version, hv.2]
  | inr k =>
    simp only [version, hv.1, Table.lookup_insert_of, Sum.inr.injEq]
    split_ifs <;> rfl

theorem version_retireEdge (db : Store) (key : EdgeKey) (label : String) (leaf : ℕ) (r : ERow)
    (h : (db.retireEdge key label leaf r).version a = some v) :
    db.version a = some v := by
  have he : (db.retireEdge key label leaf r).edge = db.edge.erase key := rfl
  cases a with
  | inl id => exact h
  | inr k =>
    simp only [version, he, Table.lookup_erase_of] at h
    split_ifs at h
    · cases h
    · exact h

theorem version_eraseVertex (db : Store) (aid : String) (h : (db.eraseVertex aid).version a = some v) :
    db.version a = some v := by
  have he : (db.eraseVertex aid).vertex = db.vertex.erase aid := rfl
  cases a with
  | inl id =>
    simp only [version, he, Table.lookup_erase_of] at h
    split_ifs at h
    · cases h
    · exact h
  | inr k => exact h

theorem version_patchVertex {db : Store} {aid : String} {r : VRow}
    (hr : db.vertex.lookup aid = some r) (doc : JsonCol) (a : String ⊕ EdgeKey) :
    (db.patchVertex aid r doc).version a = db.version a := by
  have he : (db.patchVertex aid r doc).vertex = db.vertex.insert aid { r with doc := doc } := rfl
  cases a with
  | inl id =>
    simp only [version, he, Table.lookup_insert_of]
    split_ifs with h
    · rw [h, hr]
      rfl
    · rfl
  | inr k => rfl

theorem settleVertex_frame (db : Store) (aid : String) (r : VRow) (accounted : Bool) :
    (db.settleVertex aid r accounted).vertex = db.vertex ∧
      (db.settleVertex aid r accounted).edge = db.edge ∧
      (db.settleVertex aid r accounted).seqCounter = db.seqCounter ∧
      (db.settleVertex aid r accounted).written = db.written := by
  cases accounted <;> exact ⟨rfl, rfl, rfl, rfl⟩

theorem acceptVertex_frame (db : Store) (aid : String) (row : VRow) (seq : Val) :
    (db.acceptVertex aid row seq).seqCounter = db.seqCounter ∧
      (db.acceptVertex aid row seq).written = (row.origin, row.seq) :: db.written := by
  unfold acceptVertex
  split <;> exact ⟨rfl, rfl⟩

theorem acceptEdge_frame (db : Store) (key : EdgeKey) (label : String) (row : ERow) (h : ℕ) :
    (db.acceptEdge key label row h).seqCounter = db.seqCounter ∧
      (db.acceptEdge key label row h).written = (row.origin, row.seq) :: db.written := by
  unfold acceptEdge
  split <;> exact ⟨rfl, rfl⟩

theorem observe_lookup_ne (db : Store) {x o : String} (seq : ℤ) (h : x ≠ o) :
    (db.observe x seq).seqCounter.lookup o = db.seqCounter.lookup o :=
  AList.lookup_insert_ne h.symm

end Store

structure RetireFrame (n n' : Node) : Prop where
  cache : n'.cache = n.cache
  seqCounter : n'.db.seqCounter = n.db.seqCounter
  written : n'.db.written = n.db.written
  version : ∀ a v, n'.db.version a = some v → n.db.version a = some v
  ledgerSum : ∀ o, o ≠ "" → n'.db.ledgerSum o = n.db.ledgerSum o
  counterSum : ∀ o, n'.db.counterSum o = n.db.counterSum o

theorem Retire.frame {n n' : Node} (h : Retire n n') : RetireFrame n n' := by
  cases h with
  | edge hr hl =>
    exact ⟨rfl, rfl, rfl, fun a v hv => Store.version_retireEdge _ _ _ _ _ hv,
      fun o ho => Store.ledgerSum_retireEdge hr _ _ ho,
      fun o => Store.counterSum_retireEdge _ _ _ _ _ o⟩
  | bump hn =>
    exact ⟨rfl, rfl, rfl, fun a v hv => hv, fun o _ => Store.ledgerSum_bump hn o,
      fun o => Store.counterSum_bump hn o⟩

theorem retires_frame {n n' : Node} (h : ReflTransGen Retire n n') : RetireFrame n n' := by
  induction h with
  | refl => exact ⟨rfl, rfl, rfl, fun _ _ h => h, fun _ _ => rfl, fun _ => rfl⟩
  | tail _ hs ih =>
    have hf := hs.frame
    exact ⟨hf.cache.trans ih.cache, hf.seqCounter.trans ih.seqCounter, hf.written.trans ih.written,
      fun a v hv => ih.version a v (hf.version a v hv),
      fun o ho => (hf.ledgerSum o ho).trans (ih.ledgerSum o ho),
      fun o => (hf.counterSum o).trans (ih.counterSum o)⟩

/-! ### The local origin -/

section Local

def NoRows (db : Store) (o : String) : Prop := ∀ a s, db.version a ≠ some (o, s)

/-- The number the allocator stands at: cached, else persisted, else zero. -/
def Node.stamp (n : Node) : ℤ := n.cache.getD (n.db.highWater n.origin)

structure LocalLedger (n : Node) : Prop where
  balance : n.db.ledgerSum n.origin = n.stamp
  distinct : ∀ a b s, n.db.version a = some (n.origin.val, s) →
    n.db.version b = some (n.origin.val, s) → a = b
  bounded : ∀ a s, n.db.version a = some (n.origin.val, s) → s ≤ n.stamp
  written : ∀ s, (n.origin.val, s) ∈ n.db.written → s ≤ n.stamp
  cached : ∀ c, n.cache = some c → n.db.highWater n.origin ≤ c
  uncached : n.cache = none → n.db.seqCounter.lookup n.origin.val = none → NoRows n.db n.origin
  dirty : n.cache ≠ none → n.dirty = true

theorem foldl_max_nil (rows : List (String × ℤ)) (o : String) (h : ∀ e ∈ rows, e.1 ≠ o) :
    Store.maxSeq rows o = 0 := by
  have : rows.filter (fun e => e.1 = o) = [] := by
    rw [List.filter_eq_nil_iff]
    intro e he
    simp [h e he]
  unfold Store.maxSeq
  rw [this]
  rfl

theorem recover_of_noRows (h : NoRows db o) : db.recover o = 0 := by
  unfold Store.recover
  rw [foldl_max_nil, foldl_max_nil]
  · rfl
  · intro e he heq
    obtain ⟨⟨k, r⟩, hm, rfl⟩ := List.mem_map.mp he
    refine h (.inr k) r.seq ?_
    simp only [Store.version, Table.mem_toPairs.mp hm, Option.map_some]
    rw [← heq]
  · intro e he heq
    obtain ⟨⟨k, r⟩, hm, rfl⟩ := List.mem_map.mp he
    refine h (.inl k) r.seq ?_
    simp only [Store.version, Table.mem_toPairs.mp hm, Option.map_some]
    rw [← heq]

theorem LocalLedger.issued {n : Node} (h : LocalLedger n) : n.issued = n.stamp := by
  unfold Node.issued Node.stamp
  cases hc : n.cache with
  | some c => rfl
  | none =>
    unfold Store.load Store.highWater
    cases hl : n.db.seqCounter.lookup n.origin.val with
    | some r => rfl
    | none => exact recover_of_noRows (h.uncached hc hl)

/-- What the local ledger asks of a run: what it consumes is another origin's, and nothing is
evicted. -/
def localAdm (o : String) : Adm where
  consumedVertex _ row _ := row.origin ≠ o
  authoredVertex _ _ := True
  consumedEdge _ row _ := row.origin ≠ o
  authoredEdge _ _ _ := True
  observed x _ := x ≠ o
  evict := False
  patch := True

theorem LocalLedger.congr {n n' : Node} (h : LocalLedger n) (ho : n'.origin = n.origin)
    (hc : n'.cache = n.cache) (hs : n'.db.ledgerSum n.origin = n.db.ledgerSum n.origin)
    (hv : ∀ a s, n'.db.version a = some (n.origin.val, s) → n.db.version a = some (n.origin.val, s))
    (hw : ∀ s, (n.origin.val, s) ∈ n'.db.written → (n.origin.val, s) ∈ n.db.written)
    (hq : n'.db.seqCounter.lookup n.origin.val = n.db.seqCounter.lookup n.origin.val)
    (hd : n.cache ≠ none → n.dirty = true → n'.dirty = true) : LocalLedger n' := by
  have hhw : n'.db.highWater n.origin = n.db.highWater n.origin := by
    unfold Store.highWater
    rw [hq]
  have hst : n'.stamp = n.stamp := by
    unfold Node.stamp
    rw [ho, hc, hhw]
  constructor
  · rw [ho, hs, hst, h.balance]
  · intro a b s ha hb
    rw [ho] at ha hb
    exact h.distinct a b s (hv a s ha) (hv b s hb)
  · intro a s ha
    rw [ho] at ha
    rw [hst]
    exact h.bounded a s (hv a s ha)
  · intro s hm
    rw [ho] at hm
    rw [hst]
    exact h.written s (hw s hm)
  · intro c hcc
    rw [ho, hhw]
    exact h.cached c (hc ▸ hcc)
  · intro hcn hl a s ha
    rw [ho] at hl ha
    exact h.uncached (hc ▸ hcn) (hq ▸ hl) a s (hv a s ha)
  · intro hcn
    exact hd (hc ▸ hcn) (h.dirty (hc ▸ hcn))

theorem LocalLedger.author {n n' : Node} (h : LocalLedger n) (ho : n'.origin = n.origin)
    (key : String ⊕ EdgeKey) (hc : n'.cache = some (n.stamp + 1)) (hd : n'.dirty = true)
    (hs : n'.db.ledgerSum n.origin = n.db.ledgerSum n.origin + 1)
    (hv : ∀ a, n'.db.version a =
      if a = key then some (n.origin.val, n.stamp + 1) else n.db.version a)
    (hw : n'.db.written = (n.origin.val, n.stamp + 1) :: n.db.written)
    (hq : n'.db.seqCounter = n.db.seqCounter) : LocalLedger n' := by
  have hst : n'.stamp = n.stamp + 1 := by
    unfold Node.stamp
    rw [hc]
    rfl
  have hhw : n'.db.highWater n'.origin = n.db.highWater n.origin := by
    unfold Store.highWater
    rw [hq, ho]
  have hle : n.db.highWater n.origin ≤ n.stamp := by
    unfold Node.stamp
    cases hcn : n.cache with
    | none => exact le_refl _
    | some c => exact h.cached c hcn
  -- the new number is above every number already carried
  have hfresh : ∀ a s, n'.db.version a = some (n.origin.val, s) →
      (a = key ∧ s = n.stamp + 1) ∨ (n.db.version a = some (n.origin.val, s) ∧ s ≤ n.stamp) := by
    intro a s ha
    rw [hv] at ha
    split_ifs at ha with hk
    · simp only [Option.some.injEq, Prod.mk.injEq, true_and] at ha
      exact .inl ⟨hk, ha.symm⟩
    · exact .inr ⟨ha, h.bounded a s ha⟩
  constructor
  · rw [ho, hs, hst, h.balance]
  · intro a b s ha hb
    rw [ho] at ha hb
    rcases hfresh a s ha with ⟨rfl, hsa⟩ | ⟨ha', hsa⟩
    · rcases hfresh b s hb with ⟨rfl, -⟩ | ⟨-, hsb⟩
      · rfl
      · omega
    · rcases hfresh b s hb with ⟨rfl, hsb⟩ | ⟨hb', -⟩
      · omega
      · exact h.distinct a b s ha' hb'
  · intro a s ha
    rw [ho] at ha
    rw [hst]
    rcases hfresh a s ha with ⟨-, hsa⟩ | ⟨-, hsa⟩ <;> omega
  · intro s hm
    rw [ho, hw] at hm
    rw [hst]
    rcases List.mem_cons.mp hm with heq | hm'
    · have : s = n.stamp + 1 := congrArg Prod.snd heq
      omega
    · have := h.written s hm'
      omega
  · intro c hcc
    rw [hc] at hcc
    cases hcc
    rw [hhw]
    omega
  · intro hcn
    rw [hc] at hcn
    cases hcn
  · exact fun _ => hd

theorem localLedger_micro {n n' : Node} (h : LocalLedger n) (hno : n.origin.val = o)
    (hm : Micro (localAdm o) n n') : LocalLedger n' := by
  have hne : n.origin.val ≠ "" := n.origin.property
  cases hm with
  | retire hr =>
    have hf := hr.frame
    exact h.congr hr.sameEnv.origin hf.cache (hf.ledgerSum _ hne) (fun a s hv => hf.version a _ hv)
      (fun s hs => hf.written ▸ hs) (by rw [hf.seqCounter]) fun _ => hr.sameEnv.dirty
  | observe hx =>
    exact h.congr rfl rfl rfl (fun _ _ hv => hv) (fun _ hs => hs)
      (Store.observe_lookup_ne _ _ (hno ▸ hx)) fun _ hd => hd
  | task => exact h.congr rfl rfl rfl (fun _ _ hv => hv) (fun _ hs => hs) rfl fun _ hd => hd
  | patch _ hr =>
    exact h.congr rfl rfl (Store.ledgerSum_patchVertex hr _ _)
      (fun a s hv => by rwa [Store.version_patchVertex hr] at hv) (fun _ hs => hs) rfl
      fun _ hd => hd
  | env hf hd => exact h.congr rfl rfl rfl (fun _ _ hv => hv) (fun _ hs => hs) rfl fun _ => hd
  | @authorVertex aid row _ ho hs _ =>
    rw [h.issued] at hs
    refine h.author rfl (.inl aid) (by rw [hs]) rfl ?_ ?_ ?_ (Store.acceptVertex_frame _ _ _ _).1
    · rw [Store.ledgerSum_acceptVertex _ _ _ _ hne, ho]
      simp [Store.mark]
    · intro a
      rw [Store.version_acceptVertex, ho, hs]
    · rw [(Store.acceptVertex_frame _ _ _ _).2, ho, hs]
  | @consumeVertex aid row seq ha _ _ _ =>
    have hrow : row.origin ≠ n.origin.val := hno ▸ ha
    refine h.congr rfl rfl ?_ ?_ ?_ ?_ fun _ hd => hd
    · rw [Store.ledgerSum_acceptVertex _ _ _ _ hne]
      simp [Store.mark, hrow]
    · intro a s hv
      rw [Store.version_acceptVertex] at hv
      split_ifs at hv
      · simp only [Option.some.injEq, Prod.mk.injEq] at hv
        exact absurd hv.1 hrow
      · exact hv
    · intro s hs
      rw [(Store.acceptVertex_frame _ _ _ _).2, List.mem_cons, Prod.mk.injEq] at hs
      rcases hs with hs | hs
      · exact absurd hs.1.symm hrow
      · exact hs
    · rw [(Store.acceptVertex_frame _ _ _ _).1]
  | @authorEdge key label row hh leaves _ ho hs _ _ =>
    rw [h.issued] at hs
    refine h.author rfl (.inr key) (by rw [hs]) rfl ?_ ?_ ?_ (Store.acceptEdge_frame _ _ _ _ _).1
    · rw [Store.ledgerSum_acceptEdge _ _ _ _ _ hne, ho]
      simp [Store.mark]
    · intro a
      rw [Store.version_acceptEdge, ho, hs]
    · rw [(Store.acceptEdge_frame _ _ _ _ _).2, ho, hs]
  | @consumeEdge key label row hh leaves ha _ _ _ =>
    have hrow : row.origin ≠ n.origin.val := hno ▸ ha
    refine h.congr rfl rfl ?_ ?_ ?_ ?_ fun _ hd => hd
    · rw [Store.ledgerSum_acceptEdge _ _ _ _ _ hne]
      simp [Store.mark, hrow]
    · intro a s hv
      rw [Store.version_acceptEdge] at hv
      split_ifs at hv
      · simp only [Option.some.injEq, Prod.mk.injEq] at hv
        exact absurd hv.1 hrow
      · exact hv
    · intro s hs
      rw [(Store.acceptEdge_frame _ _ _ _ _).2, List.mem_cons, Prod.mk.injEq] at hs
      rcases hs with hs | hs
      · exact absurd hs.1.symm hrow
      · exact hs
    · rw [(Store.acceptEdge_frame _ _ _ _ _).1]
  | @drop n₁ aid r hr hret =>
    -- erased, its edges retired, then settled: the sum is short by one row only in between
    have hf := retires_frame hret
    have he := retires_sameEnv hret
    obtain ⟨hv, hed, hq, hw⟩ := Store.settleVertex_frame n₁.db aid r true
    refine h.congr he.origin hf.cache ?_ ?_ ?_ ?_ fun _ => he.dirty
    · rw [Store.ledgerSum_settleVertex _ _ _ hne, hf.ledgerSum _ hne,
        Store.ledgerSum_eraseVertex hr]
      omega
    · intro a s ha
      have ha' : n₁.db.version a = some (n.origin.val, s) := by
        cases a with
        | inl id =>
          simp only [Store.version, hv] at ha
          exact ha
        | inr k =>
          simp only [Store.version, hed] at ha
          exact ha
      exact Store.version_eraseVertex _ _ (hf.version a _ ha')
    · intro s hs
      rw [hw, hf.written] at hs
      exact hs
    · rw [hq, hf.seqCounter]
      rfl
  | evict hA _ => exact hA.elim

theorem highWater_persist {c : ℤ} (h : db.highWater o ≤ c) :
    (db.persist o c).highWater o = c := by
  unfold Store.highWater at h
  unfold Store.persist
  cases hl : db.seqCounter.lookup o with
  | none => simp [Store.highWater]
  | some r =>
    rw [hl] at h
    simpa [Store.highWater] using h

theorem LocalLedger.commit {m : Node} (h : LocalLedger m) (hc : m.dirty = true → m.cache.isSome) :
    LocalLedger m.flushed.end := by
  cases hcache : m.cache with
  | none =>
    -- nothing was issued: the allocator is clean and the file already holds the stamp
    have hd : m.dirty = false := by
      cases hdd : m.dirty with
      | false => rfl
      | true =>
        have := hc hdd
        rw [hcache] at this
        cases this
    have hf : m.flushed = m := by
      unfold Node.flushed
      rw [hd]
    rw [hf]
    exact h.congr rfl hcache.symm rfl (fun _ _ hv => hv) (fun _ hs => hs) rfl
      fun hne => absurd hcache hne
  | some c =>
    have hd : m.dirty = true := h.dirty (by rw [hcache]; exact fun hcn => by cases hcn)
    have hf : m.flushed = { m with db := m.db.persist m.origin c, dirty := false } := by
      unfold Node.flushed
      rw [hd, hcache]
    have hst : m.stamp = c := by
      unfold Node.stamp
      rw [hcache]
      rfl
    have hst' : m.flushed.end.stamp = c := by
      rw [hf]
      exact highWater_persist (h.cached c hcache)
    have hver : ∀ a, m.flushed.end.db.version a = m.db.version a := by
      intro a
      rw [hf]
      cases a <;> rfl
    have ho : m.flushed.end.origin = m.origin := by rw [hf]; rfl
    have hw : m.flushed.end.db.written = m.db.written := by rw [hf]; rfl
    have hcn : m.flushed.end.cache = none := rfl
    constructor
    · rw [hst', ho, ← hst, ← h.balance, hf]
      rfl
    · intro a b s ha hb
      rw [hver, ho] at ha hb
      exact h.distinct a b s ha hb
    · intro a s ha
      rw [hver, ho] at ha
      rw [hst', ← hst]
      exact h.bounded a s ha
    · intro s hs
      rw [hw, ho] at hs
      rw [hst', ← hst]
      exact h.written s hs
    · intro c' hc'
      rw [hcn] at hc'
      cases hc'
    · intro _ hl
      rw [hf] at hl
      simp [Node.end, Store.persist] at hl
    · intro hne
      exact absurd hcn hne

/-- The ledger between operations. -/
def Settled (o : String) (n : Node) : Prop :=
  n.origin.val = o ∧ n.cache = none ∧ LocalLedger n

theorem settled_step {n n' : Node} (h : Settled o n) (hs : Step (localAdm o) n n') :
    Settled o n' := by
  obtain ⟨ho, hc, hl⟩ := h
  have hbegin : LocalLedger n.begin :=
    hl.congr rfl hc.symm rfl (fun _ _ hv => hv) (fun _ hs => hs) rfl fun hne => absurd hc hne
  cases hs with
  | @commit m hm hcm =>
    have hkeep : LocalLedger m ∧ m.origin.val = o := by
      refine micros_induct (I := fun k => LocalLedger k ∧ k.origin.val = o) ?_ hm ⟨hbegin, ho⟩
      rintro k k' ⟨hk, hko⟩ hkk
      exact ⟨localLedger_micro hk hko hkk, (hkk.sameEnv.origin ▸ hko)⟩
    have horig : m.flushed.end.origin = m.origin := by
      unfold Node.flushed
      split <;> rfl
    exact ⟨horig ▸ hkeep.2, rfl, hkeep.1.commit hcm⟩
  | @abort m he =>
    have horig : m.origin = n.origin := he.origin
    exact ⟨horig ▸ ho, rfl, hl.congr horig hc.symm rfl (fun _ _ hv => hv) (fun _ hs => hs) rfl
      fun hne => absurd hc hne⟩

/-- A consumed document or edge names an origin other than `o`. -/
def ForeignDoc (o : String) (stampRev : Bool) (d : Doc) : Prop :=
  stampRev = false → (d.get "_origin").eqStr o = false

def ForeignEdge (o : String) (stampRev : Bool) (e : EdgeSpec) : Prop :=
  stampRev = false → (e.props.get "_origin").eqStr o = false

/-- The act consumes only rows and edges of origins other than `o`, and evicts nothing. -/
def Act.ConsumesForeign (o : String) (a : Act) : Prop := a.Forall (ForeignDoc o) (ForeignEdge o) False

theorem incomingVersion_ne {v s : Val} {origin : String} {seq : ℤ} (h : v.eqStr o = false)
    (hv : incomingVersion v s = some (origin, seq)) : origin ≠ o := by
  rintro rfl
  rw [(incomingVersion_asInt hv).1] at h
  simp [Val.eqStr] at h

theorem local_admission (o : String) :
    Admission (localAdm o) (ForeignDoc o) (ForeignEdge o) False where
  put := by
    intro b d h
    refine ⟨?_, fun hb origin s hv => incomingVersion_ne (h hb) hv⟩
    intro d' hd aid _ origin seq s leaf prev row hrow
    refine ⟨fun _ _ => trivial, ?_⟩
    intro hb _ hv
    have horig : d'.get "_origin" = d.get "_origin" := by
      rcases hd with rfl | ⟨v, rfl⟩
      · rfl
      · exact Doc.get_set_of_ne _ _ (by decide)
    change (upsertVertex prev row).origin ≠ o
    rw [(upsertVertex_fields prev row).1, (vertexRow_ok hrow).1]
    exact incomingVersion_ne (horig ▸ h hb) hv
  add := by
    intro b a h
    refine ⟨?_, fun hb e he origin s hv => incomingVersion_ne (h e he hb) hv⟩
    intro e he hh _
    refine ⟨fun _ _ _ _ _ _ _ => trivial, ?_⟩
    intro hb origin seq leaf row old hrow hv
    change (upsertEdge old row).origin ≠ o
    rw [(upsertEdge_fields old row).1, (edgeRow_ok hrow).1]
    exact incomingVersion_ne (h e he hb) hv
  evict := id
  patch := trivial

theorem settled_fresh (origin : Origin) (leaves : ℕ+) :
    Settled origin (Node.fresh origin leaves) := by
  have hno : NoRows (Node.fresh origin leaves).db origin := by
    intro a s h
    cases a <;> cases h
  refine ⟨rfl, rfl, ?_⟩
  constructor
  · change Store.rowsOf Store.empty origin + Store.empty.counterOf (cVacated origin) = 0
    rw [(Store.counterOf_empty origin).2]
    rfl
  · intro a b s h
    exact absurd h (hno a s)
  · intro a s h
    exact absurd h (hno a s)
  · intro s h
    cases h
  · intro c h
    cases h
  · exact fun _ _ => hno
  · intro h
    exact absurd rfl h

/-- **Accounting of the local origin**, after any run that consumes only other origins' rows. -/
theorem local_origin_accounted (origin : Origin) (leaves : ℕ+) (acts : List Act)
    (h : ∀ a ∈ acts, a.ConsumesForeign origin) :
    ((Node.fresh origin leaves).run acts).db.rowsOf origin +
        ((Node.fresh origin leaves).run acts).db.counterOf (cVacated origin) =
      ((Node.fresh origin leaves).run acts).db.highWater origin ∧
    (∀ a b s, ((Node.fresh origin leaves).run acts).db.version a = some (origin.val, s) →
      ((Node.fresh origin leaves).run acts).db.version b = some (origin.val, s) → a = b) ∧
    (∀ s, (origin.val, s) ∈ ((Node.fresh origin leaves).run acts).db.written →
      s ≤ ((Node.fresh origin leaves).run acts).db.highWater origin) := by
  have hplaces : (localAdm origin).Places := fun cid aid e he hh _ =>
    ⟨fun _ _ _ _ _ _ _ => trivial, fun hb => by cases hb⟩
  have hsnaps : (localAdm origin).Snapshots := fun _ _ _ => trivial
  have hsteps := run_steps hplaces hsnaps acts (Node.fresh origin leaves)
    (fun a ha => admits_of_forall (local_admission origin) a (h a ha)) rfl
  obtain ⟨ho, hc, hl⟩ := steps_induct (fun n n' hn hs => settled_step hn hs) hsteps
    (settled_fresh origin leaves)
  have hst : ((Node.fresh origin leaves).run acts).stamp =
      ((Node.fresh origin leaves).run acts).db.highWater origin := by
    unfold Node.stamp
    rw [hc, ho]
    rfl
  have hb := hl.balance
  rw [hst, ho] at hb
  refine ⟨hb, ?_, ?_⟩
  · intro a b s ha hb
    exact hl.distinct a b s (ho ▸ ha) (ho ▸ hb)
  · intro s hs
    rw [← hst]
    exact hl.written s (ho ▸ hs)

def sampleRun : List Act :=
  [.putArtifact [("id", .str "a")] true false,
   .putMany [[("id", .str "b"), ("_origin", .str "peer"), ("_seq", .int 3)]] 500 false .keepLocal,
   .addEdges [.tuple (.str "a") (.str "b") (.str "link") []] 500 true,
   .transaction [.deleteArtifact "a"] false]

theorem sampleRun_consumesForeign : ∀ a ∈ sampleRun, a.ConsumesForeign "here" := by
  intro a ha
  simp only [sampleRun, List.mem_cons, List.not_mem_nil, or_false] at ha
  rcases ha with rfl | rfl | rfl | rfl <;>
    simp [Act.ConsumesForeign, Act.Forall, Act.ForallAll, ForeignDoc, ForeignEdge, Doc.get, Doc.find?,
      Val.eqStr]

theorem local_origin_accounted_sampleRun :
    (∀ a ∈ sampleRun, a.ConsumesForeign "here") ∧
    ((Node.fresh ⟨"here", by decide⟩ 4096).run sampleRun).db.rowsOf "here" +
        ((Node.fresh ⟨"here", by decide⟩ 4096).run sampleRun).db.counterOf (cVacated "here") =
      ((Node.fresh ⟨"here", by decide⟩ 4096).run sampleRun).db.highWater "here" :=
  ⟨sampleRun_consumesForeign,
    (local_origin_accounted ⟨"here", by decide⟩ 4096 sampleRun sampleRun_consumesForeign).1⟩

end Local

/-! ### Every other origin -/

section Foreign

/-- The counters of every origin count the writes made under it, and what was written under another's version had been
observed. -/
structure ForeignLedger (o : String) (db : Store) : Prop where
  counted : ∀ x, db.counterSum x = (db.written.countP fun v => v.1 = x : ℕ)
  seen : ∀ x s, x ≠ o → (x, s) ∈ db.written → 1 ≤ s ∧ s ≤ db.highWater x
  nonneg : ∀ x, x ≠ o → 0 ≤ db.highWater x
  foreign : ∀ x, x ≠ o → db.isLocal x = false

/-- What the ledger of another origin asks of a run: consumed numbers are positive. -/
def foreignAdm : Adm where
  consumedVertex _ row _ := 1 ≤ row.seq
  authoredVertex _ _ := True
  consumedEdge _ row _ := 1 ≤ row.seq
  authoredEdge _ _ _ := True
  observed _ s := 1 ≤ s
  evict := True
  patch := True

variable {o : String} {db db' : Store}

theorem marks_congr (hq : db'.seqCounter = db.seqCounter) :
    (∀ x, db'.highWater x = db.highWater x) ∧ ∀ x, db'.isLocal x = db.isLocal x := by
  unfold Store.highWater Store.isLocal
  rw [hq]
  exact ⟨fun _ => rfl, fun _ => rfl⟩

theorem ForeignLedger.congr (h : ForeignLedger o db) (hc : ∀ x, db'.counterSum x = db.counterSum x)
    (hw : db'.written = db.written) (hq : db'.seqCounter = db.seqCounter) : ForeignLedger o db' := by
  obtain ⟨hhw, hloc⟩ := marks_congr hq
  refine ⟨?_, ?_, ?_, ?_⟩
  · intro x
    rw [hc, hw, h.counted]
  · intro x s hx hm
    rw [hhw]
    exact h.seen x s hx (hw ▸ hm)
  · intro x hx
    rw [hhw]
    exact h.nonneg x hx
  · intro x hx
    rw [hloc]
    exact h.foreign x hx

theorem ForeignLedger.accept (h : ForeignLedger o db)
    (hc : ∀ y, db'.counterSum y = db.counterSum y + Store.mark y x)
    (hw : db'.written = (x, s) :: db.written) (hq : db'.seqCounter = db.seqCounter)
    (hv : x ≠ o → 1 ≤ s ∧ s ≤ db.highWater x) : ForeignLedger o db' := by
  obtain ⟨hhw, hloc⟩ := marks_congr hq
  refine ⟨?_, ?_, ?_, ?_⟩
  · intro y
    rw [hc, hw, h.counted, List.countP_cons]
    unfold Store.mark
    by_cases hxy : x = y <;> simp [hxy]
  · intro y t hy hm
    rw [hhw]
    rw [hw, List.mem_cons, Prod.mk.injEq] at hm
    rcases hm with ⟨rfl, rfl⟩ | hm
    · exact hv hy
    · exact h.seen y t hy hm
  · intro y hy
    rw [hhw]
    exact h.nonneg y hy
  · intro y hy
    rw [hloc]
    exact h.foreign y hy

theorem highWater_observe (x : String) (s : ℤ) (y : String) :
    (db.observe x s).highWater y =
      if y = x then (match db.seqCounter.lookup x with
        | some r => max r.lastSeq s
        | none => s) else db.highWater y := by
  unfold Store.highWater Store.observe
  simp only [Table.lookup_insert_of]
  by_cases h : y = x
  · rw [if_pos h, if_pos h]
    cases db.seqCounter.lookup x <;> rfl
  · rw [if_neg h, if_neg h]

theorem ForeignLedger.observe (h : ForeignLedger o db) {x : String} {s : ℤ} (hs : 1 ≤ s) :
    ForeignLedger o (db.observe x s) := by
  -- an observed mark only rises, and a first one starts above zero
  have hmono : ∀ y, y ≠ o → db.highWater y ≤ (db.observe x s).highWater y := by
    intro y hy
    rw [highWater_observe]
    by_cases hyx : y = x
    · subst hyx
      rw [if_pos rfl]
      unfold Store.highWater
      cases hl : db.seqCounter.lookup y with
      | some r => exact le_max_left _ _
      | none =>
        simp only
        omega
    · rw [if_neg hyx]
  refine ⟨h.counted, ?_, ?_, ?_⟩
  · intro y t hy hm
    have := h.seen y t hy hm
    have := hmono y hy
    omega
  · intro y hy
    have := h.nonneg y hy
    have := hmono y hy
    omega
  · intro y hy
    have := h.foreign y hy
    unfold Store.isLocal at this ⊢
    unfold Store.observe
    simp only [Table.lookup_insert_of]
    by_cases hyx : y = x
    · subst hyx
      rw [if_pos rfl]
      cases hl : db.seqCounter.lookup y with
      | some r =>
        rw [hl] at this
        exact this
      | none => rfl
    · rw [if_neg hyx]
      exact this

theorem foreignLedger_micro {n n' : Node} (h : ForeignLedger n.origin n.db)
    (hm : Micro foreignAdm n n') : ForeignLedger n.origin n'.db := by
  have hseen : ∀ {x : String} {s : ℤ},
      (∃ r, n.db.seqCounter.lookup x = some r ∧ s ≤ r.lastSeq) → s ≤ n.db.highWater x := by
    rintro x s ⟨r, hr, hs⟩
    unfold Store.highWater
    rw [hr]
    exact hs
  cases hm with
  | retire hr =>
    have hf := hr.frame
    exact h.congr hf.counterSum hf.written hf.seqCounter
  | observe hs => exact h.observe hs
  | task => exact h.congr (fun _ => rfl) rfl rfl
  | patch _ hr => exact h.congr (fun _ => rfl) rfl rfl
  | env hf hd => exact h
  | authorVertex _ ho _ _ =>
    exact h.accept (fun y => Store.counterSum_acceptVertex _ _ _ _ y)
      (Store.acceptVertex_frame _ _ _ _).2 (Store.acceptVertex_frame _ _ _ _).1
      fun hne => absurd ho hne
  | consumeVertex ha _ ho _ =>
    exact h.accept (fun y => Store.counterSum_acceptVertex _ _ _ _ y)
      (Store.acceptVertex_frame _ _ _ _).2 (Store.acceptVertex_frame _ _ _ _).1
      fun _ => ⟨ha, hseen ho⟩
  | authorEdge _ ho _ _ _ =>
    exact h.accept (fun y => Store.counterSum_acceptEdge _ _ _ _ _ y)
      (Store.acceptEdge_frame _ _ _ _ _).2 (Store.acceptEdge_frame _ _ _ _ _).1
      fun hne => absurd ho hne
  | consumeEdge ha ho _ _ =>
    exact h.accept (fun y => Store.counterSum_acceptEdge _ _ _ _ _ y)
      (Store.acceptEdge_frame _ _ _ _ _).2 (Store.acceptEdge_frame _ _ _ _ _).1
      fun _ => ⟨ha, hseen ho⟩
  | @drop n₁ aid r hr hret =>
    have hf := retires_frame hret
    obtain ⟨-, -, hq, hw⟩ := Store.settleVertex_frame n₁.db aid r true
    refine h.congr ?_ (hw.trans hf.written) (hq.trans hf.seqCounter)
    intro x
    rw [Store.counterSum_settleVertex, hf.counterSum]
    rfl
  | @evict aid r _ hr =>
    obtain ⟨-, -, hq, hw⟩ := Store.settleVertex_frame (n.db.eraseVertex aid) aid r false
    refine h.congr ?_ hw hq
    intro x
    rw [Store.counterSum_settleVertex]
    rfl

theorem ForeignLedger.persist (h : ForeignLedger o db) (c : ℤ) : ForeignLedger o (db.persist o c) := by
  have hlook : ∀ y, y ≠ o → (db.persist o c).seqCounter.lookup y = db.seqCounter.lookup y :=
    fun y hy => AList.lookup_insert_ne hy
  refine ⟨h.counted, ?_, ?_, ?_⟩
  · intro y t hy hm
    unfold Store.highWater
    rw [hlook y hy]
    exact h.seen y t hy hm
  · intro y hy
    unfold Store.highWater
    rw [hlook y hy]
    exact h.nonneg y hy
  · intro y hy
    unfold Store.isLocal
    rw [hlook y hy]
    exact h.foreign y hy

theorem flushed_db (m : Node) : m.flushed.end.origin = m.origin ∧
    (m.flushed.end.db = m.db ∨ ∃ c, m.flushed.end.db = m.db.persist m.origin c) := by
  unfold Node.flushed
  split
  · exact ⟨rfl, .inr ⟨_, rfl⟩⟩
  · exact ⟨rfl, .inl rfl⟩

theorem foreignLedger_step {n n' : Node} (h : ForeignLedger n.origin n.db)
    (hs : Step foreignAdm n n') : n'.origin = n.origin ∧ ForeignLedger n'.origin n'.db := by
  cases hs with
  | @commit m hm hc =>
    have hkeep : ForeignLedger m.origin m.db ∧ m.origin = n.origin := by
      refine micros_induct (I := fun k => ForeignLedger k.origin k.db ∧ k.origin = n.origin) ?_ hm
        ⟨h, rfl⟩
      rintro k k' ⟨hk, hko⟩ hkk
      have he := hkk.sameEnv.origin
      exact ⟨by rw [he]; exact foreignLedger_micro hk hkk, he.trans hko⟩
    obtain ⟨ho, hd | ⟨c, hd⟩⟩ := flushed_db m
    · exact ⟨ho.trans hkeep.2, by rw [ho, hd]; exact hkeep.1⟩
    · exact ⟨ho.trans hkeep.2, by rw [ho, hd]; exact hkeep.1.persist c⟩
  | @abort m he =>
    have ho : m.origin = n.origin := he.origin
    exact ⟨ho, by change ForeignLedger m.origin n.db; rw [ho]; exact h⟩

/-! ### The history only grows -/

theorem written_micro {n n' : Node} (h : Micro A n n') :
    n.db.written <:+ n'.db.written := by
  cases h with
  | retire hr =>
    rw [hr.frame.written]
  | authorVertex =>
    rw [(Store.acceptVertex_frame _ _ _ _).2]
    exact List.suffix_cons _ _
  | consumeVertex =>
    rw [(Store.acceptVertex_frame _ _ _ _).2]
    exact List.suffix_cons _ _
  | authorEdge =>
    rw [(Store.acceptEdge_frame _ _ _ _ _).2]
    exact List.suffix_cons _ _
  | consumeEdge =>
    rw [(Store.acceptEdge_frame _ _ _ _ _).2]
    exact List.suffix_cons _ _
  | @drop n₁ aid r hr hret =>
    rw [(Store.settleVertex_frame n₁.db aid r true).2.2.2, (retires_frame hret).written]
    exact List.suffix_rfl
  | @evict aid r _ hr =>
    rw [(Store.settleVertex_frame (n.db.eraseVertex aid) aid r false).2.2.2]
    exact List.suffix_rfl
  | _ => exact List.suffix_rfl

theorem written_steps {n n' : Node} (h : Steps A n n') :
    n.db.written <:+ n'.db.written := by
  refine steps_induct (I := fun k => n.db.written <:+ k.db.written) ?_ h List.suffix_rfl
  intro k k' hk hs
  cases hs with
  | @commit m hm hc =>
    have hkm : n.db.written <:+ m.db.written := by
      refine micros_induct (I := fun k => n.db.written <:+ k.db.written) ?_ hm hk
      exact fun _ _ hj hjj => hj.trans (written_micro hjj)
    rcases (flushed_db m).2 with hd | ⟨c, hd⟩
    · rwa [hd]
    · rwa [hd]
  | abort => exact hk

/-! ### The report -/

/-- A consumed document or edge carries a positive sequence number. -/
def PositiveDoc (stampRev : Bool) (d : Doc) : Prop :=
  stampRev = false → ∀ s, (d.get "_seq").asInt = some s → 1 ≤ s

def PositiveEdge (stampRev : Bool) (e : EdgeSpec) : Prop :=
  stampRev = false → ∀ s, (e.props.get "_seq").asInt = some s → 1 ≤ s

def Act.ConsumesPositive (a : Act) : Prop := a.Forall PositiveDoc PositiveEdge True

theorem foreign_admission : Admission foreignAdm PositiveDoc PositiveEdge True where
  put := by
    intro b d h
    refine ⟨?_, fun hb origin s hv => h hb s (incomingVersion_asInt hv).2⟩
    intro d' hd aid _ origin seq s leaf prev row hrow
    refine ⟨fun _ _ => trivial, ?_⟩
    intro hb _ hv
    have hseq : d'.get "_seq" = d.get "_seq" := by
      rcases hd with rfl | ⟨v, rfl⟩
      · rfl
      · exact Doc.get_set_of_ne _ _ (by decide)
    change 1 ≤ (upsertVertex prev row).seq
    rw [(upsertVertex_fields prev row).2.1, (vertexRow_ok hrow).2.1]
    exact h hb s (hseq ▸ (incomingVersion_asInt hv).2)
  add := by
    intro b a h
    refine ⟨?_, fun hb e he origin s hv => h e he hb s (incomingVersion_asInt hv).2⟩
    intro e he hh _
    refine ⟨fun _ _ _ _ _ _ _ => trivial, ?_⟩
    intro hb origin seq leaf row old hrow hv
    change 1 ≤ (upsertEdge old row).seq
    rw [(upsertEdge_fields old row).2.1, (edgeRow_ok hrow).2.1]
    exact h e he hb seq (incomingVersion_asInt hv).2
  evict := id
  patch := trivial

theorem foreignLedger_fresh (origin : Origin) : ForeignLedger origin Store.empty where
  counted x := by
    unfold Store.counterSum
    rw [(Store.counterOf_empty x).1, (Store.counterOf_empty x).2]
    rfl
  seen x s _ h := by cases h
  nonneg x _ := le_refl 0
  foreign x _ := rfl

theorem length_le_of_nodup {l : List ℤ} {b : ℤ} (hb : 0 ≤ b) (hnd : l.Nodup)
    (h : ∀ s ∈ l, 1 ≤ s ∧ s ≤ b) : (l.length : ℤ) ≤ b := by
  have hsub : l.toFinset ⊆ Finset.Icc 1 b := by
    intro s hs
    rw [List.mem_toFinset] at hs
    exact Finset.mem_Icc.mpr (h s hs)
  have hcard := Finset.card_le_card hsub
  rw [List.toFinset_card_of_nodup hnd, Int.card_Icc] at hcard
  omega

theorem ForeignLedger.balanced (h : ForeignLedger o db) (hx : x ≠ o)
    (hnd : (db.written.filter fun v => v.1 ≠ o).Nodup) : (seqAccounting db x).balanced = true := by
  have hcount : ((db.written.countP fun v => v.1 = x : ℕ) : ℤ) ≤ db.highWater x := by
    rw [List.countP_eq_length_filter, ← List.length_map Prod.snd]
    refine length_le_of_nodup (h.nonneg x hx) ?_ ?_
    · -- versions of one origin differ in their number
      have hfx : (db.written.filter fun v => v.1 = x).Nodup := by
        have : (db.written.filter fun v => v.1 = x) =
            (db.written.filter fun v => v.1 ≠ o).filter fun v => v.1 = x := by
          rw [List.filter_filter]
          refine List.filter_congr fun v _ => ?_
          by_cases hv : v.1 = x <;> simp [hv, hx]
        rw [this]
        exact hnd.filter _
      refine hfx.map_on ?_
      intro v hv w hw heq
      simp only [List.mem_filter, decide_eq_true_eq] at hv hw
      exact Prod.ext (hv.2.trans hw.2.symm) heq
    · intro s hs
      obtain ⟨⟨y, t⟩, hm, rfl⟩ := List.mem_map.mp hs
      simp only [List.mem_filter, decide_eq_true_eq] at hm
      obtain ⟨hm, rfl⟩ := hm
      exact h.seen y t hx hm
  have hsum := h.counted x
  unfold Store.counterSum at hsum
  simp only [seqAccounting, h.foreign x hx, Bool.false_eq_true, if_false, decide_eq_true_eq]
  omega

/-- **Accounting of every other origin**, where no version is written twice and the numbers are positive. -/
theorem foreign_origin_balanced (origin : Origin) (leaves : ℕ+) (acts : List Act)
    (hpos : ∀ a ∈ acts, a.ConsumesPositive)
    (hnd : (((Node.fresh origin leaves).run acts).db.written.filter
      fun v => v.1 ≠ origin.val).Nodup)
    (pre post : List Act) (hsplit : acts = pre ++ post) (x : String) (hx : x ≠ origin.val) :
    (seqAccounting ((Node.fresh origin leaves).run pre).db x).balanced = true := by
  have hplaces : foreignAdm.Places := fun cid aid e he hh _ =>
    ⟨fun _ _ _ _ _ _ _ => trivial, fun hb => by cases hb⟩
  have hsnaps : foreignAdm.Snapshots := fun _ _ _ => trivial
  have hadm : ∀ a ∈ acts, a.Admits foreignAdm := fun a ha =>
    admits_of_forall foreign_admission a (hpos a ha)
  have hpre := run_steps hplaces hsnaps pre (Node.fresh origin leaves)
    (fun a ha => hadm a (hsplit ▸ List.mem_append_left _ ha)) rfl
  have hpost := run_steps hplaces hsnaps post ((Node.fresh origin leaves).run pre)
    (fun a ha => hadm a (hsplit ▸ List.mem_append_right _ ha)) (steps_inTxn hpre rfl)
  have hl : ((Node.fresh origin leaves).run pre).origin = origin ∧
      ForeignLedger ((Node.fresh origin leaves).run pre).origin
        ((Node.fresh origin leaves).run pre).db := by
    refine steps_induct (I := fun k => k.origin = origin ∧ ForeignLedger k.origin k.db) ?_ hpre
      ⟨rfl, foreignLedger_fresh origin⟩
    rintro k k' ⟨hk, hkl⟩ hs
    obtain ⟨h1, h2⟩ := foreignLedger_step hkl hs
    exact ⟨h1.trans hk, h2⟩
  obtain ⟨ho, hl⟩ := hl
  rw [ho] at hl
  refine hl.balanced hx (List.Nodup.sublist ?_ hnd)
  rw [hsplit, run_append]
  exact (written_steps hpost).sublist.filter _

def opWrite : Act :=
  .putArtifact [("id", .str "mesh.cursor"), ("_origin", .str "_local:mesh.cursor"), ("_seq", .int 1)]
    false false

theorem opWrite_twice_unbalanced :
    ¬ ∀ (acts : List Act) (x : String), x ≠ "here" →
      (seqAccounting ((Node.fresh ⟨"here", by decide⟩ 4096).run acts).db x).balanced = true := by
  intro h
  have h2 := h [opWrite, opWrite] "_local:mesh.cursor" (by decide)
  have hf : (seqAccounting ((Node.fresh ⟨"here", by decide⟩ 4096).run [opWrite, opWrite]).db
      "_local:mesh.cursor").balanced = false := by decide +kernel
  rw [hf] at h2
  cases h2

theorem foreign_origin_balanced_opWrite :
    (∀ a ∈ [opWrite], a.ConsumesPositive) ∧
    (((Node.fresh ⟨"here", by decide⟩ 4096).run [opWrite]).db.written.filter
      fun v => v.1 ≠ "here").Nodup ∧
    (seqAccounting ((Node.fresh ⟨"here", by decide⟩ 4096).run [opWrite]).db
      "_local:mesh.cursor").balanced = true := by
  have hpos : ∀ a ∈ [opWrite], a.ConsumesPositive := by
    intro a ha
    rw [List.mem_singleton] at ha
    subst ha
    simp [Act.ConsumesPositive, opWrite, Act.Forall, PositiveDoc, Doc.get, Doc.find?]
  have hnd : (((Node.fresh ⟨"here", by decide⟩ 4096).run [opWrite]).db.written.filter
      fun v => v.1 ≠ "here").Nodup := by decide +kernel
  exact ⟨hpos, hnd, foreign_origin_balanced ⟨"here", by decide⟩ 4096 [opWrite] hpos hnd [opWrite] []
    rfl "_local:mesh.cursor" (by decide)⟩

end Foreign

end Mantle
