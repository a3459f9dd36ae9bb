import Mantle.Db.Counters
import Mantle.Db.Documented
import Mantle.Db.Watch

/-!
# Mantle.Db.Mark — the whole-of-store write mark (`write_mark`)

The mark lists every origin's last number and the two row totals.  Unchanged, it means unchanged tables as long as no
row slips in below its origin's number and no document is rewritten in place.
-/

namespace Mantle

open Tx Relation

variable {o : String}

/-! ### The mark -/

/-- The rows `write_mark` reads: the counters are told apart from the origins by a `#`. -/
def markRows (db : Store) : List (String × ℤ) :=
  (db.seqCounter.toPairs.map fun e => (e.1, e.2.lastSeq)) ++
    (db.counter.toPairs.filter fun e => e.1 ∈ [cVertexTotal, cEdgeTotal]).map fun e => ("#" ++ e.1, e.2)

/-- The order of `sorted` on pairs of a text and a number. -/
def markLe (a b : String × ℤ) : Prop := a.1 < b.1 ∨ a.1 = b.1 ∧ a.2 ≤ b.2

instance : DecidableRel markLe := fun _ _ => inferInstanceAs (Decidable (_ ∨ _))

def writeMark (db : Store) : List (String × ℤ) := (markRows db).insertionSort markLe

/-- The origins whose numbers the mark cannot tell from a total. -/
def markReserved : List String := ["#" ++ cVertexTotal, "#" ++ cEdgeTotal]

def Store.lastOf (db : Store) (origin : String) : Option ℤ :=
  (db.seqCounter.lookup origin).map SeqRow.lastSeq

theorem mem_markRows {db : Store} {k : String} {v : ℤ} :
    (k, v) ∈ markRows db ↔ db.lastOf k = some v ∨
      ∃ name ∈ [cVertexTotal, cEdgeTotal], k = "#" ++ name ∧ db.counter.lookup name = some v := by
  unfold markRows Store.lastOf
  rw [List.mem_append, List.mem_map, List.mem_map]
  refine or_congr ?_ ?_
  · constructor
    · rintro ⟨⟨o, r⟩, hm, he⟩
      cases he
      rw [Table.mem_toPairs.mp hm]
      rfl
    · intro h
      obtain ⟨r, hr, rfl⟩ := Option.map_eq_some_iff.mp h
      exact ⟨(k, r), Table.mem_toPairs.mpr hr, rfl⟩
  · constructor
    · rintro ⟨⟨name, n⟩, hm, he⟩
      cases he
      rw [List.mem_filter] at hm
      exact ⟨name, by simpa using hm.2, rfl, Table.mem_toPairs.mp hm.1⟩
    · rintro ⟨name, hname, rfl, hn⟩
      exact ⟨(name, v), List.mem_filter.mpr ⟨Table.mem_toPairs.mpr hn, by simpa using hname⟩, rfl⟩

theorem mem_markRows_of_eq {a b : Store} (h : writeMark a = writeMark b) (e : String × ℤ) :
    e ∈ markRows a ↔ e ∈ markRows b := by
  have hp : (markRows a).Perm (markRows b) :=
    (List.perm_insertionSort markLe (markRows a)).symm.trans
      ((List.Perm.of_eq h).trans (List.perm_insertionSort markLe (markRows b)))
  exact hp.mem_iff

/-- No origin is named like a total. -/
def Store.Plain (db : Store) : Prop := ∀ o ∈ markReserved, db.seqCounter.lookup o = none

theorem Store.Plain.lastOf {db : Store} (h : db.Plain) (ho : o ∈ markReserved) :
    db.lastOf o = none := by
  unfold Store.lastOf
  rw [h o ho]
  rfl

theorem lastOf_eq_of_mark {a b : Store} (h : writeMark a = writeMark b) (ha : a.Plain) (hb : b.Plain)
    (o : String) : a.lastOf o = b.lastOf o := by
  by_cases ho : o ∈ markReserved
  · rw [ha.lastOf ho, hb.lastOf ho]
  · have hno : ∀ name ∈ [cVertexTotal, cEdgeTotal], o ≠ "#" ++ name := by
      simpa [markReserved] using ho
    ext v
    have := mem_markRows_of_eq h (o, v)
    rw [mem_markRows, mem_markRows] at this
    constructor
    · intro hv
      rcases this.mp (.inl hv) with h' | ⟨name, hn, he, -⟩
      · exact h'
      · exact absurd he (hno name hn)
    · intro hv
      rcases this.mpr (.inl hv) with h' | ⟨name, hn, he, -⟩
      · exact h'
      · exact absurd he (hno name hn)

theorem counterOf_eq_of_mark {a b : Store} (h : writeMark a = writeMark b) (ha : a.Plain)
    (hb : b.Plain) {name : String} (hname : name ∈ [cVertexTotal, cEdgeTotal]) :
    a.counterOf name = b.counterOf name := by
  have hres : "#" ++ name ∈ markReserved := by
    simp only [List.mem_cons, List.not_mem_nil, or_false] at hname
    rcases hname with rfl | rfl <;> decide
  have hiff : ∀ db : Store, db.Plain → ∀ v,
      ("#" ++ name, v) ∈ markRows db ↔ db.counter.lookup name = some v := by
    intro db hdb v
    rw [mem_markRows, hdb.lastOf hres]
    constructor
    · rintro (h' | ⟨name', -, he, hv⟩)
      · cases h'
      · have : name = name' := by simpa using he
        rwa [this]
    · exact fun hv => .inr ⟨name, hname, rfl, hv⟩
  have : a.counter.lookup name = b.counter.lookup name := by
    ext v
    rw [← hiff a ha v, ← hiff b hb v]
    exact mem_markRows_of_eq h _
  unfold Store.counterOf
  rw [this]

/-! ### The totals count the rows -/

def Table.rowCount {κ ρ : Type} (t : Table κ ρ) : ℤ := t.sumBy fun _ _ => 1

theorem Table.rowCount_eq {κ ρ : Type} (t : Table κ ρ) : t.rowCount = t.entries.length := by
  unfold Table.rowCount Table.sumBy
  simp

structure TotalInv (db : Store) : Prop where
  vertex : db.counterOf cVertexTotal = db.vertex.rowCount
  edge : db.counterOf cEdgeTotal = db.edge.rowCount

/-- The name of every other counter has a colon. -/
def Tagged (name : String) : Prop := ':' ∈ name.toList

theorem tagged_countedNames (d : Doc) (ct : Val) : ∀ name ∈ countedNames d ct, Tagged name := by
  intro name h
  unfold countedNames at h
  simp only [List.mem_append, List.mem_flatMap] at h
  rcases h with ((h | h) | h) | ⟨f, -, h⟩
  all_goals
    split_ifs at h <;> simp only [List.mem_cons, List.not_mem_nil, or_false] at h
  all_goals
    rcases h with rfl | rfl <;> simp [Tagged, cCt, cState, cCollection, cMissing]

theorem tagged_rows (o : String) : Tagged (cRows o) := by simp [Tagged, cRows]

theorem tagged_vacated (o : String) : Tagged (cVacated o) := by simp [Tagged, cVacated]

theorem tagged_edgeLabel (l : String) : Tagged (cEdgeLabel l) := by simp [Tagged, cEdgeLabel]

theorem tagged_taskStatus (ct status : String) : Tagged (cTaskStatus ct status) := by
  simp [Tagged, cTaskStatus]

theorem tagged_state (st : String) : Tagged (cState st) := by simp [Tagged, cState]

section Totals

variable {name : String} (hname : ':' ∉ name.toList)
include hname

theorem counterOf_bump_tagged {x : String} (hx : Tagged x) (db : Store) (delta : ℤ) :
    (db.bump x delta).counterOf name = db.counterOf name := by
  have hne : name ≠ x := by
    rintro rfl
    exact hname hx
  rw [Store.counterOf_bump, if_neg hne, add_zero]

theorem counterOf_bumps_tagged : ∀ {deltas : List (String × ℤ)} (_ : ∀ e ∈ deltas, Tagged e.1)
    (db : Store), (db.bumps deltas).counterOf name = db.counterOf name
  | [], _, _ => rfl
  | e :: deltas, h, db => by
    have hrest : ∀ e' ∈ deltas, Tagged e'.1 := fun e' he' => h e' (by simp [he'])
    have := counterOf_bumps_tagged hrest (db.bump e.1 e.2)
    rw [counterOf_bump_tagged hname (h e (by simp))] at this
    exact this

theorem counterOf_vacate_tagged (db : Store) (o : String) :
    (db.vacate o).counterOf name = db.counterOf name := by
  unfold Store.vacate
  by_cases ho : o = ""
  · simp [ho, Store.counterOf]
  · simp only [ho, if_false]
    have h1 := counterOf_bump_tagged hname (tagged_vacated o) (db.bump (cRows o) (-1)) 1
    exact h1.trans (counterOf_bump_tagged hname (tagged_rows o) db (-1))

theorem counterOf_acceptVertex_tagged (db : Store) (aid : String) (row : VRow) (seq : Val) :
    (db.acceptVertex aid row seq).counterOf name = db.counterOf name := by
  unfold Store.acceptVertex
  cases db.vertex.lookup aid with
  | none =>
    rw [counterOf_bump_tagged hname (tagged_rows _)]
    simp
  | some p =>
    dsimp only
    rw [counterOf_bump_tagged hname (tagged_rows _), counterOf_vacate_tagged hname]
    simp

theorem counterOf_uncounted_tagged (db : Store) (old : Option Doc) :
    (db.uncounted old).counterOf name = db.counterOf name := by
  unfold Store.uncounted
  split
  · exact counterOf_bump_tagged hname (tagged_taskStatus _ _) db (-1)
  · rfl

theorem counterOf_tasked_tagged (db : Store) (aid : String) (t : Option TaskRow) :
    (db.tasked aid t).counterOf name = db.counterOf name := by
  cases t with
  | none => rfl
  | some t => exact counterOf_bump_tagged hname (tagged_taskStatus _ _) db 1

end Totals

theorem colon_vertexTotal : ':' ∉ cVertexTotal.toList := by decide

theorem colon_edgeTotal : ':' ∉ cEdgeTotal.toList := by decide

theorem TotalInv.of_frame {db db' : Store} (h : TotalInv db) (hv : db'.vertex.rowCount = db.vertex.rowCount)
    (he : db'.edge = db.edge)
    (hc : ∀ name, ':' ∉ name.toList → db'.counterOf name = db.counterOf name) : TotalInv db' where
  vertex := by
    rw [hc _ colon_vertexTotal, hv]
    exact h.vertex
  edge := by
    rw [hc _ colon_edgeTotal, he]
    exact h.edge

theorem TotalInv.bumps {db : Store} (h : TotalInv db) {deltas : List (String × ℤ)}
    (hd : ∀ e ∈ deltas, Tagged e.1) : TotalInv (db.bumps deltas) := by
  have hs := Store.bumps_sameRows deltas db
  exact h.of_frame (by rw [hs.vertex]) hs.edge fun _ hn => counterOf_bumps_tagged hn hd db

theorem TotalInv.patchVertex {db : Store} (h : TotalInv db) {aid : String} {r : VRow} (col : JsonCol)
    (hr : db.vertex.lookup aid = some r) : TotalInv (db.patchVertex aid r col) := by
  refine h.of_frame ?_ rfl fun _ _ => rfl
  change Table.sumBy _ (db.vertex.insert aid { r with doc := col }) = Table.sumBy _ db.vertex
  rw [Table.sumBy_insert, Table.weightAt_some hr, sub_add_cancel]

theorem TotalInv.moved {db db' : Store} (h : TotalInv db) {id : String} {t t' : TaskRow} {fields : Doc}
    (hm : TaskMoved id t t' fields db db') : TotalInv db' := by
  have hc : ∀ name, ':' ∉ name.toList → db'.counterOf name = db.counterOf name := by
    intro name hn
    have hne : ∀ status, name ≠ cTaskStatus t.ct status := by
      rintro status rfl
      exact hn (tagged_taskStatus _ _)
    rw [hm.counter, if_neg (hne _), if_neg (hne _), sub_zero, add_zero]
  rcases hm.vertex with ⟨-, hv⟩ | ⟨r, col, hr, -, hv⟩
  · exact h.of_frame (by rw [hv]) hm.edge hc
  · have hp := h.patchVertex col hr
    exact hp.of_frame (by rw [hv]; rfl) hm.edge hc

theorem TotalInv.rowStored {db : Store} (h : TotalInv db) (aid : String) (d : Doc) (row : VRow)
    (seq : Val) (t : Option TaskRow) : TotalInv (db.rowStored aid d row seq t) := by
  obtain ⟨hv, he, -⟩ := Store.rowStored_rows db aid d row seq t
  have hdeltas : ∀ (o : Option Doc) (ct ct' : Val), ∀ e ∈ counterDeltas o (some d) ct ct', Tagged e.1 :=
    fun _ _ _ => forall_counterDeltas tagged_countedNames
  have hcount : ∀ name, ':' ∉ name.toList → (db.rowStored aid d row seq t).counterOf name =
      db.counterOf name + if (db.vertex.lookup aid).isNone ∧ name = cVertexTotal then 1 else 0 := by
    intro name hn
    unfold Store.rowStored Store.recounted
    rw [counterOf_tasked_tagged hn, counterOf_uncounted_tagged hn, counterOf_bumps_tagged hn (hdeltas _ _ _)]
    cases hk : db.vertex.lookup aid with
    | none =>
      simp only [Option.map_none, Option.isNone_none, if_true, true_and]
      rw [Store.counterOf_bump, counterOf_acceptVertex_tagged hn]
    | some p =>
      simp only [Option.map_some, Option.isNone_some, Bool.false_eq_true, if_false, false_and, add_zero]
      exact counterOf_acceptVertex_tagged hn db aid _ seq
  constructor
  · rw [hcount _ colon_vertexTotal, hv, h.vertex]
    unfold Table.rowCount
    rw [Table.sumBy_insert, Table.weightAt_elim]
    cases db.vertex.lookup aid <;> simp
  · rw [hcount _ colon_edgeTotal, he, h.edge]
    simp [cEdgeTotal, cVertexTotal]

theorem TotalInv.acceptEdge {db : Store} (h : TotalInv db) (key : EdgeKey) (label : String) (row : ERow)
    (hash : ℕ) : TotalInv (db.acceptEdge key label row hash) := by
  obtain ⟨he, hv⟩ := Store.acceptEdge_tables db key label row hash
  have hcount : ∀ name, ':' ∉ name.toList → (db.acceptEdge key label row hash).counterOf name =
      db.counterOf name + if (db.edge.lookup key).isNone ∧ name = cEdgeTotal then 1 else 0 := by
    intro name hn
    unfold Store.acceptEdge
    cases db.edge.lookup key with
    | none =>
      simp only [Option.isNone_none, true_and]
      rw [counterOf_bump_tagged hn (tagged_rows _), counterOf_bump_tagged hn (tagged_edgeLabel _),
        Store.counterOf_bump]
      simp
    | some o =>
      simp only [Option.isNone_some, Bool.false_eq_true, false_and, if_false, add_zero]
      rw [counterOf_bump_tagged hn (tagged_rows _), counterOf_vacate_tagged hn]
      simp
  constructor
  · rw [hcount _ colon_vertexTotal, hv, h.vertex]
    simp [cEdgeTotal, cVertexTotal]
  · rw [hcount _ colon_edgeTotal, he, h.edge]
    unfold Table.rowCount
    rw [Table.sumBy_insert, Table.weightAt_elim]
    cases db.edge.lookup key <;> simp

theorem TotalInv.retireEdge {db : Store} (h : TotalInv db) {key : EdgeKey} {r : ERow} (label : String)
    (leaf : ℕ) (hr : db.edge.lookup key = some r) : TotalInv (db.retireEdge key label leaf r) := by
  have hcount : ∀ name, ':' ∉ name.toList → (db.retireEdge key label leaf r).counterOf name =
      db.counterOf name + if name = cEdgeTotal then -1 else 0 := by
    intro name hn
    unfold Store.retireEdge
    rw [counterOf_vacate_tagged hn, counterOf_bump_tagged hn (tagged_edgeLabel _), Store.counterOf_bump]
    rfl
  constructor
  · rw [hcount _ colon_vertexTotal, h.vertex]
    change db.vertex.rowCount + _ = db.vertex.rowCount
    simp [cEdgeTotal, cVertexTotal]
  · rw [hcount _ colon_edgeTotal, if_pos rfl, h.edge]
    change _ = Table.sumBy _ (db.edge.erase key)
    rw [Table.sumBy_erase, Table.weightAt_some hr]
    rfl

theorem TotalInv.rowDeleted {db : Store} (h : TotalInv db) {aid : String} {r : VRow} (accounted : Bool)
    (hr : db.vertex.lookup aid = some r) : TotalInv (db.rowDeleted aid r accounted) := by
  obtain ⟨hv, he, -⟩ := Store.rowDeleted_rows db aid r accounted
  have hcount : ∀ name, ':' ∉ name.toList → (db.rowDeleted aid r accounted).counterOf name =
      db.counterOf name + if name = cVertexTotal then -1 else 0 := by
    intro name hn
    unfold Store.rowDeleted
    rw [counterOf_tasked_tagged hn, counterOf_uncounted_tagged hn,
      counterOf_bumps_tagged hn (forall_counterDeltas tagged_countedNames)]
    cases accounted with
    | true =>
      unfold Store.settleVertex
      rw [counterOf_vacate_tagged hn, Store.counterOf_bump]
      rfl
    | false =>
      unfold Store.settleVertex
      rw [Store.counterOf_bump]
      rfl
  constructor
  · rw [hcount _ colon_vertexTotal, if_pos rfl, hv, h.vertex]
    unfold Table.rowCount
    rw [Table.sumBy_erase, Table.weightAt_some hr]
    rfl
  · rw [hcount _ colon_edgeTotal, he, h.edge]
    simp [cEdgeTotal, cVertexTotal]

theorem total_rowRules : RowRules TotalInv fun _ => True where
  seq := fun _ _ h => ⟨h.vertex, h.edge⟩
  conflict := fun db h =>
    ⟨@TotalInv.bumps _ h [(cUnordered, 1)] (by simp [Tagged, cUnordered]),
      @TotalInv.bumps _ h [(cUnorderedEdge, 1)] (by simp [Tagged, cUnorderedEdge])⟩
  accept := fun _ _ _ _ _ _ _ _ _ _ h => h.acceptEdge _ _ _ _
  retire := fun _ _ leaf r hr h => h.retireEdge r.label leaf hr
  row := fun _ _ _ _ _ _ _ _ _ _ _ _ _ _ _ h => h.rowStored _ _ _ _ _
  reparent := fun _ _ h => h

theorem total_single (a : Act) (n : Node) (ha : a.Single) : Keeps TotalInv (exec a) n := by
  have hI := total_rowRules
  refine hI.toEdgeRules.exec ha ?_ ?_ ?_ ?_ fun hp => keeps_patches hI.seq hp ?_ fun hm h => h.moved hm
  · exact fun _ _ _ _ => keeps_putArtifact hI fun _ _ => trivial
  · exact fun _ b _ u _ => keeps_putMany hI b u fun _ _ => trivial
  · exact fun _ _ label leaf _ _ hr hn => hn.retireEdge label leaf hr
  · exact fun _ _ b _ _ _ hr hn => hn.rowDeleted b hr
  · intro _ _ chunk _
    refine keeps_relabelChunk (fun db _ r col h hr _ => h.patchVertex col hr) (fun db i j h => ?_)
      (fun db _ _ _ _ h => h.bumps (forall_counterDeltas tagged_countedNames)) chunk
    exact h.bumps (by simp [tagged_state])

theorem total_run : ∀ (acts : List Act) (n : Node), TotalInv n.db → n.inTxn = false →
    TotalInv (n.run acts).db ∧ (n.run acts).inTxn = false
  | [], _, h, hi => ⟨h, hi⟩
  | a :: acts, n, h, hi => by
    have hk : Keeps TotalInv (exec a) n := keeps_exec (P := fun _ _ => True) total_rowRules.seq
      (fun a n ha _ => total_single a n ha) a n (Act.meets_true a n.db)
    obtain ⟨h', hi'⟩ := hk.ended (n.after_ends a) h hi
    exact total_run acts (n.after a) h' hi'

theorem totalInv_empty : TotalInv Store.empty where
  vertex := by decide
  edge := by decide

/-! ### Numbers never fall -/

/-- The number is above what its origin has reached, or the origin is new. -/
def Store.Above (db : Store) (origin : String) (seq : ℤ) : Prop :=
  ∀ last, db.lastOf origin = some last → last < seq

/-- No origin's number fell, and no origin was forgotten. -/
def Grown (a b : Store) : Prop :=
  ∀ o last, a.lastOf o = some last → ∃ last', b.lastOf o = some last' ∧ last ≤ last'

/-- Some origin's number rose, or an origin is new. -/
def Raised (a b : Store) : Prop := ∃ o last, b.lastOf o = some last ∧ a.Above o last

/-- Every row of the second store is a row of the first. -/
structure Within (a b : Store) : Prop where
  vertex : ∀ id r, b.vertex.lookup id = some r → a.vertex.lookup id = some r
  edge : ∀ key r, b.edge.lookup key = some r → a.edge.lookup key = some r

/-- Every row of either store is a row of the other. -/
structure SameContent (a b : Store) : Prop where
  vertex : ∀ id, b.vertex.lookup id = a.vertex.lookup id
  edge : ∀ key, b.edge.lookup key = a.edge.lookup key

section Relations

variable {a b c : Store}

theorem Grown.refl (a : Store) : Grown a a := fun _ last h => ⟨last, h, le_refl _⟩

theorem Grown.trans (h : Grown a b) (h' : Grown b c) : Grown a c := by
  intro o last hl
  obtain ⟨l₁, h₁, hle₁⟩ := h o last hl
  obtain ⟨l₂, h₂, hle₂⟩ := h' o l₁ h₁
  exact ⟨l₂, h₂, hle₁.trans hle₂⟩

theorem Grown.of_seqCounter (h : b.seqCounter = a.seqCounter) : Grown a b := by
  intro o last hl
  refine ⟨last, ?_, le_refl _⟩
  unfold Store.lastOf at hl ⊢
  rw [h, hl]

theorem Grown.above (h : Grown a b) {seq : ℤ} (hb : b.Above o seq) : a.Above o seq := by
  intro last hl
  obtain ⟨last', hl', hle⟩ := h o last hl
  exact lt_of_le_of_lt hle (hb last' hl')

theorem Store.Above.mono {s s' : ℤ} (h : a.Above o s) (hs : s ≤ s') : a.Above o s' :=
  fun last hl => lt_of_lt_of_le (h last hl) hs

theorem Raised.grow (h : Raised a b) (h' : Grown b c) : Raised a c := by
  obtain ⟨o, last, hl, hab⟩ := h
  obtain ⟨last', hl', hle⟩ := h' o last hl
  exact ⟨o, last', hl', hab.mono hle⟩

theorem Within.refl (a : Store) : Within a a := ⟨fun _ _ h => h, fun _ _ h => h⟩

theorem Within.trans (h : Within a b) (h' : Within b c) : Within a c :=
  ⟨fun id r hr => h.vertex id r (h'.vertex id r hr), fun k r hr => h.edge k r (h'.edge k r hr)⟩

theorem SameContent.within (h : SameContent a b) : Within a b :=
  ⟨fun id _ hr => h.vertex id ▸ hr, fun k _ hr => h.edge k ▸ hr⟩

theorem SameTables.content (h : SameTables a b) : SameContent a b :=
  ⟨fun _ => by rw [h.vertex], fun _ => by rw [h.edge]⟩

theorem grown_observe (db : Store) (origin : String) (seq : ℤ) : Grown db (db.observe origin seq) := by
  intro o last hl
  unfold Store.lastOf Store.observe at *
  rw [Table.lookup_insert_of]
  split_ifs with ho
  · subst ho
    obtain ⟨r, hr, rfl⟩ := Option.map_eq_some_iff.mp hl
    rw [hr]
    exact ⟨_, rfl, le_max_left _ _⟩
  · exact ⟨last, hl, le_refl _⟩

theorem persist_lastOf (db : Store) (origin : String) (c : ℤ) :
    ∃ last, (db.persist origin c).lastOf origin = some last ∧ c ≤ last := by
  unfold Store.lastOf Store.persist
  rw [Table.lookup_insert_of, if_pos rfl]
  cases db.seqCounter.lookup origin with
  | none => exact ⟨c, rfl, le_refl c⟩
  | some r => exact ⟨_, rfl, le_max_right _ _⟩

theorem grown_persist (db : Store) (origin : String) (c : ℤ) : Grown db (db.persist origin c) := by
  intro o last hl
  unfold Store.lastOf Store.persist at *
  rw [Table.lookup_insert_of]
  split_ifs with ho
  · subst ho
    obtain ⟨r, hr, rfl⟩ := Option.map_eq_some_iff.mp hl
    rw [hr]
    exact ⟨_, rfl, le_max_left _ _⟩
  · exact ⟨last, hl, le_refl _⟩

theorem load_of_lastOf {db : Store} {last : ℤ} (h : db.lastOf o = some last) :
    db.load o = last := by
  obtain ⟨r, hr, rfl⟩ := Option.map_eq_some_iff.mp h
  unfold Store.load
  rw [hr]

theorem lookup_eq_of_rowCount {κ ρ : Type} [DecidableEq κ] {t t' : Table κ ρ}
    (h : ∀ k r, t'.lookup k = some r → t.lookup k = some r) (hc : t'.rowCount = t.rowCount) (k : κ) :
    t'.lookup k = t.lookup k := by
  have hsub : t'.entries ⊆ t.entries := by
    rintro ⟨k, r⟩ hm
    exact AList.mem_lookup_iff.mp (h k r (AList.mem_lookup_iff.mpr hm))
  have hnd : t'.entries.Nodup := t'.nodupKeys.nodup
  rw [Table.rowCount_eq, Table.rowCount_eq] at hc
  have hperm : t'.entries.Perm t.entries :=
    (List.subperm_of_subset hnd hsub).perm_of_length_le (by omega)
  exact AList.perm_lookup hperm

/-- **The mark.**  Rows that only left, under equal marks, are all still there. -/
theorem sameContent_of_mark (ha : TotalInv a) (hb : TotalInv b) (hpa : a.Plain) (hpb : b.Plain)
    (hmark : writeMark a = writeMark b) (h : Raised a b ∨ Within a b) : SameContent a b := by
  have hlast := lastOf_eq_of_mark hmark hpa hpb
  have hwithin : Within a b := by
    rcases h with ⟨o, last, hl, hab⟩ | h
    · rw [← hlast] at hl
      exact absurd (hab last hl) (lt_irrefl _)
    · exact h
  have hv := @counterOf_eq_of_mark _ _ hmark hpa hpb cVertexTotal (by simp)
  have he := @counterOf_eq_of_mark _ _ hmark hpa hpb cEdgeTotal (by simp)
  rw [ha.vertex, hb.vertex] at hv
  rw [ha.edge, hb.edge] at he
  exact ⟨lookup_eq_of_rowCount hwithin.vertex hv.symm, lookup_eq_of_rowCount hwithin.edge he.symm⟩

end Relations

/-! ### The mark inside a transaction -/

/-- The mark moved, or will when the transaction commits. -/
def Loud (db₀ : Store) (n : Node) : Prop :=
  Raised db₀ n.db ∨ n.dirty = true ∧ n.cache.isSome = true

/-- The numbers inside a transaction, seen from an earlier store. -/
structure Paced (me : Origin) (L : ℕ+) (db₀ : Store) (n : Node) : Prop where
  origin : n.origin = me
  leaves : n.graphLeaves = L
  grown : Grown db₀ n.db
  fresh : ∀ c, n.cache = some c → db₀.Above me c

/-- The numbers and the rows inside a transaction. -/
structure MarkIn (me : Origin) (L : ℕ+) (db₀ : Store) (n : Node) : Prop extends Paced me L db₀ n where
  moved : Loud db₀ n ∨ Within db₀ n.db

/-- Outside one. -/
structure MarkOut (me : Origin) (L : ℕ+) (db₀ : Store) (n : Node) : Prop where
  origin : n.origin = me
  leaves : n.graphLeaves = L
  grown : Grown db₀ n.db
  moved : Raised db₀ n.db ∨ Within db₀ n.db

theorem flushed_grown (n : Node) : Grown n.db n.flushed.db := by
  unfold Node.flushed
  split
  · exact grown_persist _ _ _
  · exact Grown.refl _

theorem MarkIn.commit {me : Origin} {L : ℕ+} {db₀ : Store} {m : Node} (h : MarkIn me L db₀ m) :
    MarkOut me L db₀ m.flushed.end := by
  have hgrown := h.grown.trans (flushed_grown m)
  refine ⟨?_, ?_, hgrown, ?_⟩
  · unfold Node.flushed
    split <;> exact h.origin
  · unfold Node.flushed
    split <;> exact h.leaves
  · rcases h.moved with (hr | ⟨hd, hc⟩) | hw
    · exact .inl (hr.grow (flushed_grown m))
    · obtain ⟨c, hc⟩ := Option.isSome_iff_exists.mp hc
      obtain ⟨last, hl, hle⟩ := persist_lastOf m.db m.origin c
      have hf : m.flushed.db = m.db.persist m.origin c := by simp [Node.flushed, hd, hc]
      refine .inl ⟨m.origin, last, ?_, ?_⟩
      · change m.flushed.db.lastOf _ = _
        rw [hf]
        exact hl
      · rw [h.origin]
        exact (h.fresh c hc).mono hle
    · refine .inr (hw.trans ?_)
      have hs : SameTables m.db m.flushed.db := by
        unfold Node.flushed
        split <;> exact ⟨rfl, rfl⟩
      exact hs.content.within

/-- The mark as an invariant of the node, seen from an earlier store. -/
def markWatch (me : Origin) (L : ℕ+) (db₀ : Store) : Watch where
  inside := MarkIn me L db₀
  outside := MarkOut me L db₀
  opens := fun n h => ⟨⟨h.origin, h.leaves, h.grown, fun c hc => nomatch hc⟩, h.moved.imp Or.inl id⟩
  commits := fun m h _ => h.commit
  aborts := fun n m h he => ⟨he.origin.trans h.origin, he.graphLeaves.trans h.leaves, h.grown, h.moved⟩
  undoes := by
    intro n m h he
    refine ⟨⟨he.origin.trans h.origin, he.graphLeaves.trans h.leaves, h.grown, h.fresh⟩, ?_⟩
    rcases h.moved with (hr | ⟨hd, hc⟩) | hw
    · exact .inl (.inl hr)
    · exact .inl (.inr ⟨he.dirty hd, hc⟩)
    · exact .inr hw

theorem acceptVertex_seqCounter (db : Store) (aid : String) (row : VRow) (seq : Val) :
    (db.acceptVertex aid row seq).seqCounter = db.seqCounter := by
  unfold Store.acceptVertex
  split <;> rfl

theorem acceptEdge_seqCounter (db : Store) (key : EdgeKey) (label : String) (row : ERow) (h : ℕ) :
    (db.acceptEdge key label row h).seqCounter = db.seqCounter := by
  unfold Store.acceptEdge
  split <;> rfl

theorem settleVertex_frame (db : Store) (aid : String) (r : VRow) (b : Bool) :
    (db.settleVertex aid r b).seqCounter = db.seqCounter ∧ SameTables db (db.settleVertex aid r b) := by
  cases b <;> exact ⟨rfl, rfl, rfl⟩

theorem retires_within {n n' : Node} (h : ReflTransGen Retire n n') :
    n'.db.seqCounter = n.db.seqCounter ∧ n'.cache = n.cache ∧ Within n.db n'.db := by
  induction h with
  | refl => exact ⟨rfl, rfl, Within.refl _⟩
  | tail _ hs ih =>
    obtain ⟨h1, h2, h3⟩ := ih
    cases hs with
    | bump => exact ⟨h1, h2, h3.trans ⟨fun _ _ h => h, fun _ _ h => h⟩⟩
    | @edge key label r leaves hr hl =>
      refine ⟨h1, h2, h3.trans ⟨fun _ _ h => h, ?_⟩⟩
      intro k r' hk
      have he := hk.symm.trans (Table.lookup_erase_of (k := key))
      split_ifs at he
      exact he.symm

variable {A : Adm} {n n' : Node}

theorem Micro.clock (h : Micro A n n') :
    (n'.db.seqCounter = n.db.seqCounter ∨
      ∃ o s, A.observed o s ∧ n'.db.seqCounter = (n.db.observe o s).seqCounter) ∧
    (n'.cache = n.cache ∨ n'.dirty = true ∧ n'.cache = some (n.issued + 1)) := by
  cases h with
  | retire h =>
    obtain ⟨h1, h2, -⟩ := retires_within (ReflTransGen.single h)
    exact ⟨.inl h1, .inl h2⟩
  | @observe o s hA => exact ⟨.inr ⟨o, s, hA, rfl⟩, .inl rfl⟩
  | task => exact ⟨.inl rfl, .inl rfl⟩
  | patch => exact ⟨.inl rfl, .inl rfl⟩
  | env => exact ⟨.inl rfl, .inl rfl⟩
  | authorVertex _ _ hs => exact ⟨.inl (acceptVertex_seqCounter _ _ _ _), .inr ⟨rfl, by rw [hs]⟩⟩
  | consumeVertex => exact ⟨.inl (acceptVertex_seqCounter _ _ _ _), .inl rfl⟩
  | authorEdge _ _ hs => exact ⟨.inl (acceptEdge_seqCounter _ _ _ _ _), .inr ⟨rfl, by rw [hs]⟩⟩
  | consumeEdge => exact ⟨.inl (acceptEdge_seqCounter _ _ _ _ _), .inl rfl⟩
  | @drop n₁ aid r hr h =>
    obtain ⟨h1, h2, -⟩ := retires_within h
    exact ⟨.inl ((settleVertex_frame n₁.db aid r true).1.trans h1), .inl h2⟩
  | @evict aid r hA hr =>
    exact ⟨.inl (settleVertex_frame (n.db.eraseVertex aid) aid r false).1, .inl rfl⟩

theorem Micro.grown (h : Micro A n n') : Grown n.db n'.db := by
  rcases h.clock.1 with hs | ⟨o, s, -, hs⟩
  · exact Grown.of_seqCounter hs
  · exact (grown_observe n.db o s).trans (Grown.of_seqCounter hs)

variable {me : Origin} {L : ℕ+} {db₀ : Store}

theorem Paced.issued (h : Paced me L db₀ n) : db₀.Above me (n.issued + 1) := by
  intro last hl
  unfold Node.issued
  cases hc : n.cache with
  | some c =>
    have := h.fresh c hc last hl
    simp only [Option.getD_some]
    omega
  | none =>
    obtain ⟨last', hl', hle⟩ := h.grown me last hl
    rw [h.origin, load_of_lastOf hl']
    simp only [Option.getD_none]
    omega

theorem Loud.micro (h : Loud db₀ n) (hm : Micro A n n') : Loud db₀ n' := by
  rcases h with hr | ⟨hd, hc⟩
  · exact .inl (hr.grow hm.grown)
  · refine .inr ⟨hm.sameEnv.dirty hd, ?_⟩
    rcases hm.clock.2 with he | ⟨-, he⟩
    · rwa [he]
    · rw [he]
      rfl

theorem Paced.micro (h : Paced me L db₀ n) (hm : Micro A n n') : Paced me L db₀ n' where
  origin := hm.sameEnv.origin.trans h.origin
  leaves := hm.sameEnv.graphLeaves.trans h.leaves
  grown := h.grown.trans hm.grown
  fresh := by
    intro c hc
    rcases hm.clock.2 with he | ⟨-, he⟩
    · exact h.fresh c (he ▸ hc)
    · rw [he] at hc
      cases hc
      exact h.issued

/-- A consumed row is above what its origin had reached at the earlier moment, and no document is rewritten in place. -/
def markAdm (db₀ : Store) : Adm where
  consumedVertex _ row _ := db₀.Above row.origin row.seq
  authoredVertex _ _ := True
  consumedEdge _ row _ := db₀.Above row.origin row.seq
  authoredEdge _ _ _ := True
  observed _ _ := True
  evict := True
  patch := False

theorem raised_of_observed {db : Store} {seq : ℤ} (ho : ∃ r, db.seqCounter.lookup o = some r ∧ seq ≤ r.lastSeq)
    (h : db₀.Above o seq) :
    Raised db₀ db := by
  obtain ⟨r, hr, hle⟩ := ho
  refine ⟨o, r.lastSeq, ?_, h.mono hle⟩
  unfold Store.lastOf
  rw [hr]
  rfl

theorem within_eraseVertex (db : Store) (aid : String) : Within db (db.eraseVertex aid) := by
  refine ⟨?_, fun _ _ h => h⟩
  intro id r hr
  have he := hr.symm.trans (Table.lookup_erase_of (k := aid))
  split_ifs at he
  exact he.symm

theorem markIn_micro (h : MarkIn me L db₀ n) (hm : Micro (markAdm db₀) n n') : MarkIn me L db₀ n' := by
  refine ⟨h.toPaced.micro hm, ?_⟩
  rcases h.moved with hl | hw
  · exact .inl (hl.micro hm)
  cases hm with
  | retire h => exact .inr (hw.trans (retires_within (ReflTransGen.single h)).2.2)
  | observe => exact .inr ⟨hw.vertex, hw.edge⟩
  | task => exact .inr ⟨hw.vertex, hw.edge⟩
  | patch hA => exact hA.elim
  | env => exact .inr hw
  | authorVertex => exact .inl (.inr ⟨rfl, rfl⟩)
  | consumeVertex ha _ ho =>
    refine .inl (.inl (raised_of_observed ?_ ha))
    rw [acceptVertex_seqCounter]
    exact ho
  | authorEdge => exact .inl (.inr ⟨rfl, rfl⟩)
  | consumeEdge ha ho =>
    refine .inl (.inl (raised_of_observed ?_ ha))
    rw [acceptEdge_seqCounter]
    exact ho
  | @drop n₁ aid r hr h =>
    have h1 := (retires_within h).2.2
    have h2 := (settleVertex_frame n₁.db aid r true).2.content.within
    exact .inr (((hw.trans (within_eraseVertex _ _)).trans h1).trans h2)
  | @evict aid r hA hr =>
    have h2 := (settleVertex_frame (n.db.eraseVertex aid) aid r false).2.content.within
    exact .inr ((hw.trans (within_eraseVertex _ _)).trans h2)

/-! ### Statements that change no row -/

theorem steps_grown (h : Steps A n n') : Grown n.db n'.db := by
  induction h with
  | refl => exact Grown.refl _
  | @tail b c _ hs ih =>
    refine ih.trans ?_
    cases hs with
    | @commit m hm hc =>
      have hg : Grown b.db m.db := micros_induct (I := fun m => Grown b.db m.db)
        (fun _ _ h hm => h.trans hm.grown) hm (Grown.refl _)
      exact hg.trans (flushed_grown m)
    | abort => exact Grown.refl _

theorem steps_origin (h : Steps A n n') : n'.origin = n.origin := by
  refine steps_induct (I := fun m => m.origin = n.origin) ?_ h rfl
  intro a b ha hab
  cases hab with
  | @commit m hm hc =>
    have hf : m.flushed.origin = m.origin := by
      unfold Node.flushed
      split <;> rfl
    exact hf.trans ((micros_sameEnv hm).origin.trans ha)
  | abort he => exact he.origin.trans ha

theorem bearsIn_quiet {α : Type} {m : DbM α} (h : Inner A m n)
    (hs : Runs m n (fun _ n' => SameContent n.db n'.db) fun _ => True) :
    BearsIn (markWatch me L db₀) m n := by
  intro hin
  refine (Runs.and h hs).mono ?_ fun _ he => he.1
  rintro _ n' ⟨hm, hc⟩
  refine ⟨⟨micros_induct (fun _ _ h hm => h.micro hm) hm hin.toPaced, ?_⟩, micros_sameEnv hm⟩
  rcases hin.moved with hl | hw
  · exact .inl (micros_induct (fun _ _ h hm => h.micro hm) hm hl)
  · exact .inr (hw.trans hc.within)

theorem bears_quiet {α : Type} {m : DbM α} (h : Safe A m n)
    (hs : Runs m n (fun _ n' => SameContent n.db n'.db)
      fun n' => n.inTxn = false → SameContent n.db n'.db) : Bears (markWatch me L db₀) m n := by
  refine ⟨fun hi => bearsIn_quiet (h.1 hi) (hs.mono (fun _ _ h => h) fun _ _ => trivial), ?_⟩
  intro hi hout
  have hend : ∀ n', Steps A n n' → SameContent n.db n'.db →
      MarkOut me L db₀ n' ∧ n'.inTxn = false := by
    intro n' hsteps hc
    have ho : n'.origin = n.origin := steps_origin hsteps
    refine ⟨⟨ho.trans hout.origin, (steps_sameLeaves hsteps).2.trans hout.leaves,
      hout.grown.trans (steps_grown hsteps), ?_⟩, steps_inTxn hsteps hi⟩
    rcases hout.moved with hr | hw
    · exact .inl (hr.grow (steps_grown hsteps))
    · exact .inr (hw.trans hc.within)
  refine ((h.2 hi).and hs).mono ?_ ?_
  · rintro _ n' ⟨hsteps, hc⟩
    exact hend n' hsteps hc
  · rintro n' ⟨hsteps, hc⟩
    exact hend n' hsteps (hc hi)

/-! ### What the mark asks of the calls -/

/-- `put_many` takes the document over, under its version. -/
def TakesDoc (onUnordered : OnUnordered) (db : Store) (doc : Doc) (origin : String) (seq : ℤ) : Prop :=
  oneRows db false onUnordered doc = [doc] ∧
    incomingVersion (doc.get "_origin") (doc.get "_seq") = some (origin, seq)

/-- `add_edges` takes the edge over, under its version. -/
def TakesEdge (db : Store) (arg : EdgeArg) (origin : String) (seq : ℤ) : Prop :=
  ∃ e, unpack arg = .ok e ∧
    incomingVersion (e.props.get "_origin") (e.props.get "_seq") = some (origin, seq) ∧
    TakenOver (db.edge.lookup (edgeKey e.src e.dst e.label)) origin seq

/-- A transition does not take place, or writes what its document holds already. -/
def Unpatched (db : Store) (id : String) (guard : TaskRow → Prop) (fields : Doc) : Prop :=
  ∀ t r col, db.task.lookup id = some t → guard t → db.vertex.lookup id = some r →
    (r.doc.val.update fields).toCol = .ok col → col = r.doc

/-- No document is rewritten in place: a relabel finds no row, a transition is not due or changes
nothing. -/
def Act.Unpatching (db : Store) : Act → Prop
  | .relabelState old new _ limit exclude => old ∉ legacyLiveStates ∨ new ≠ stateLive ∨ limit = some 0 ∨
      relabelIds db old "" exclude 1 = []
  | .tryClaim id workerId nowIso => Unpatched db id (fun t => t.status = "pending")
      [("status", .str "claimed"), ("claimed_by", .str workerId), ("claimed_at", .str nowIso)]
  | .renewLease id nowIso => Unpatched db id (fun t => t.status = "claimed")
      [("claimed_at", .str nowIso)]
  | .release id toStatus nextRetryAt => Unpatched db id (fun t => t.status = "claimed")
      [("status", .str toStatus), ("claimed_by", .none), ("next_retry_at", optText nextRetryAt)]
  | .settle id workerId toStatus nextRetryAt completedAt fields =>
      Unpatched db id (fun t => t.status = "claimed" ∧ t.claimedBy.eqStr workerId)
        (fields.update [("status", .str toStatus), ("claimed_by", .none),
          ("next_retry_at", optText nextRetryAt), ("completed_at", optText completedAt)])
  | _ => True

/-- A consumed row that the store takes over is above what its origin had reached when the call began, and no document
is rewritten in place. -/
def Act.Marks (n : Node) : Act → Prop
  | .putArtifact doc stampRev _ => stampRev = false → ∀ origin seq,
      incomingVersion (doc.get "_origin") (doc.get "_seq") = some (origin, seq) → n.db.Above origin seq
  | .putMany docs batch stampRev onUnordered => stampRev = false →
      ∀ p ∈ bulkHandled (putOne false onUnordered) n (chunked batch [] docs), ∀ origin seq,
        TakesDoc onUnordered p.1.db p.2 origin seq → n.db.Above origin seq
  | .addEdges edges batch stampRev => stampRev = false →
      ∀ p ∈ bulkHandled (fun e => addOne n.graphLeaves e false) n (chunked batch [] edges),
        ∀ origin seq, TakesEdge p.1.db p.2 origin seq → n.db.Above origin seq
  | a => a.Unpatching n.db

theorem mark_places (db₀ : Store) : (markAdm db₀).Places := by
  intro cid aid e _ h _
  refine ⟨fun _ _ _ _ _ _ _ => trivial, fun hf => ?_⟩
  cases hf

theorem mark_snapshots (db₀ : Store) : (markAdm db₀).Snapshots := fun _ _ _ => trivial

theorem mark_docAdm {stampRev : Bool} {doc : Doc} (h : stampRev = false → ∀ origin seq,
      incomingVersion (doc.get "_origin") (doc.get "_seq") = some (origin, seq) →
      db₀.Above origin seq) : DocAdm (markAdm db₀) stampRev doc := by
  intro aid _ origin seq s leaf prev row hrow
  refine ⟨fun _ _ => trivial, fun hf _ hv => ?_⟩
  obtain ⟨ho, hs, -, -⟩ := vertexRow_ok hrow
  obtain ⟨huo, hus, -, -⟩ := upsertVertex_fields prev row
  change db₀.Above (upsertVertex prev row).origin (upsertVertex prev row).seq
  rw [huo, hus, ho, hs]
  exact h hf origin s hv

theorem mark_edgeAdm {stampRev : Bool} {arg : EdgeArg} (h : stampRev = false → ∀ e, unpack arg = .ok e →
      ∀ origin seq, incomingVersion (e.props.get "_origin") (e.props.get "_seq") = some (origin, seq) →
      db₀.Above origin seq) : EdgeAdm (markAdm db₀) stampRev arg := by
  intro e he hash _
  refine ⟨fun _ _ _ _ _ _ _ => trivial, fun hf origin seq leaf row old hrow hv => ?_⟩
  obtain ⟨ho, hs, -⟩ := edgeRow_ok hrow
  obtain ⟨huo, hus, -⟩ := upsertEdge_fields old row
  change db₀.Above (upsertEdge old row).origin (upsertEdge old row).seq
  rw [huo, hus, ho, hs]
  exact h hf e he origin seq hv

theorem mark_putOne {onUnordered : OnUnordered} {doc : Doc} {n : Node}
    (h : ∀ origin seq, TakesDoc onUnordered n.db doc origin seq → db₀.Above origin seq) :
    BearsIn (markWatch me L db₀) (putOne false onUnordered doc) n := by
  by_cases ht : oneRows n.db false onUnordered doc = [doc]
  · refine bearsIn_inner (fun _ _ => markIn_micro) (inner_putOne (mark_places db₀) ⟨?_, ?_⟩ onUnordered n)
    · exact mark_docAdm fun _ origin seq hv => h origin seq ⟨ht, hv⟩
    · exact fun _ _ _ _ => trivial
  · have hany : Inner .any (putOne false onUnordered doc) n :=
      inner_putOne (fun _ _ => edgeAdm_any _ _) ⟨docAdm_any _ _, fun _ _ _ _ => trivial⟩ onUnordered n
    refine bearsIn_quiet hany ((putOne_tables onUnordered doc n).imp ?_)
    rintro k n' ⟨-, ⟨-, hs⟩ | ⟨ht', -⟩⟩
    · exact hs.content
    · exact absurd ht' ht

theorem mark_addOne {arg : EdgeArg} {n : Node} {leaves : ℕ+} (hl : n.EdgeLeaves leaves)
    (h : ∀ origin seq, TakesEdge n.db arg origin seq → db₀.Above origin seq) :
    BearsIn (markWatch me L db₀) (addOne leaves arg false) n := by
  by_cases ht : ∃ origin seq, TakesEdge n.db arg origin seq
  · obtain ⟨origin, seq, e, he, hv, htaken⟩ := ht
    refine bearsIn_inner (fun _ _ => markIn_micro) (inner_addOne ?_ (fun _ _ _ _ _ _ => trivial) hl)
    refine mark_edgeAdm fun _ e' he' o s hv' => h o s ⟨e', he', hv', ?_⟩
    obtain rfl : e = e' := Except.ok.inj (he.symm.trans he')
    obtain ⟨rfl, rfl⟩ : origin = o ∧ seq = s := by
      rw [hv] at hv'
      cases hv'
      exact ⟨rfl, rfl⟩
    exact htaken
  · have hany : Inner .any (addOne leaves arg false) n :=
      inner_addOne (edgeAdm_any _ _) (fun _ _ _ _ _ _ => trivial) hl
    refine bearsIn_quiet hany ((addOne_handled leaves arg n).imp ?_)
    rintro k n' ⟨-, e, origin, seq, he, hv, ⟨-, hs⟩ | ⟨htaken, -⟩⟩
    · exact hs.content
    · exact absurd ⟨origin, seq, e, he, hv, htaken⟩ ht

theorem transits_sameContent {m : DbM Bool} {id : String} {guard : TaskRow → Prop}
    {next : TaskRow → TaskRow} {fields : Doc} (ht : Transits m id guard next fields n)
    (h : Unpatched n.db id guard fields) : Runs m n (fun _ n' => SameContent n.db n'.db)
      fun n' => n.inTxn = false → SameContent n.db n'.db := by
  refine Runs.mono ht ?_ ?_
  · rintro b n' ⟨⟨-, hdb, -⟩ | ⟨-, t, htask, hg, hmoved⟩, -⟩
    · rw [hdb]
      exact (SameTables.refl _).content
    · refine ⟨fun x => ?_, fun k => by rw [hmoved.edge]⟩
      rcases hmoved.vertex with ⟨-, hv⟩ | ⟨r, col, hr, hcol, hv⟩
      · rw [hv]
      · rw [hv, Table.lookup_insert_of, h t r col htask hg hr hcol]
        split_ifs with hx
        · rw [hx, hr]
        · rfl
  · rintro n' ⟨-, hdb, -⟩ hi
    rw [hdb hi]
    exact (SameTables.refl _).content

theorem relabelState_idle {old new : String} {batch : ℕ} {limit : Option ℕ} {exclude : Option String}
    (h : old ∉ legacyLiveStates ∨ new ≠ stateLive ∨ limit = some 0 ∨
      relabelIds n.db old "" exclude 1 = []) :
    Runs (relabelState old new batch limit exclude) n (fun _ n' => n' = n) fun n' => n' = n := by
  unfold relabelState
  refine runs_ite (fun _ => runs_throw rfl) fun hno => ?_
  rw [not_or, not_not, not_not] at hno
  have h' : limit = some 0 ∨ relabelIds n.db old "" exclude 1 = [] := by
    rcases h with h | h | h
    · exact absurd hno.1 h
    · exact absurd hno.2 h
    · exact h
  refine runs_read ?_
  unfold relabelLoop
  refine runs_ite (fun _ => runs_pure rfl) fun hlim => ?_
  rcases h' with rfl | hids
  · simp at hlim
  · have hempty : ∀ take, relabelIds n.db old "" exclude take = [] := by
      intro take
      unfold relabelIds at hids ⊢
      dsimp only at hids ⊢
      rw [List.take_eq_nil_iff] at hids
      rw [hids.resolve_left (by decide), List.take_nil]
    refine runs_read ?_
    rw [hempty]
    exact runs_pure rfl

theorem any_places : Adm.any.Places := fun _ _ => edgeAdm_any _ _

theorem any_snapshots : Adm.any.Snapshots := fun _ _ _ => trivial

theorem unpatching_sameContent {a : Act} (ha : a.Patches) (h : a.Unpatching n.db) :
    Safe .any (exec a) n ∧ Runs (exec a) n (fun _ n' => SameContent n.db n'.db)
      fun n' => n.inTxn = false → SameContent n.db n'.db := by
  have hdiscard : ∀ {α : Type} {m : DbM α}, Safe .any m n →
      Runs m n (fun _ n' => SameContent n.db n'.db) (fun n' => n.inTxn = false → SameContent n.db n'.db) →
      Safe .any (discard m) n ∧ Runs (discard m) n (fun _ n' => SameContent n.db n'.db)
        fun n' => n.inTxn = false → SameContent n.db n'.db := fun hs hr =>
    ⟨safe_discard hs, runs_bind (hr.mono (fun _ _ h => runs_pure h) fun _ h => h)⟩
  cases a with
  | relabelState old new batch limit exclude =>
    refine hdiscard (safe_relabelState trivial _ _ _ _ _ n) ((relabelState_idle h).mono ?_ ?_)
    · rintro _ n' rfl
      exact (SameTables.refl _).content
    · rintro n' rfl _
      exact (SameTables.refl _).content
  | tryClaim id workerId nowIso =>
    exact hdiscard (safe_tryClaim trivial _ _ _ n) (transits_sameContent (tryClaim_transits _ _ _ n) h)
  | renewLease id nowIso =>
    exact hdiscard (safe_renewLease trivial _ _ n) (transits_sameContent (renewLease_transits _ _ n) h)
  | release id toStatus nextRetryAt =>
    exact hdiscard (safe_release trivial _ _ _ n) (transits_sameContent (release_transits _ _ _ n) h)
  | settle id workerId toStatus nextRetryAt completedAt fields =>
    exact hdiscard (safe_settle trivial _ _ _ _ _ _ n)
      (transits_sameContent (settle_transits _ _ _ _ _ _ n) h)
  | _ => exact ha.elim

theorem mark_single (a : Act) (n : Node) (ha : a.Single) (h : a.Marks n) :
    Bears (markWatch me L db₀) (exec a) n := by
  have hsafe : ∀ {a : Act}, a.Admits (markAdm db₀) → Bears (markWatch me L db₀) (exec a) n := fun hadm =>
    bears_safe (fun _ _ => markIn_micro) (safe_exec (mark_places db₀) (mark_snapshots db₀) _ hadm n)
  have hquiet : ∀ {a : Act}, a.Patches → a.Unpatching n.db → Bears (markWatch me L db₀) (exec a) n :=
    fun hp hu => bears_quiet (unpatching_sameContent hp hu).1 (unpatching_sameContent hp hu).2
  refine bears_of fun hstart => ?_
  have hgrown : Grown db₀ n.db := hstart.elim (fun h => h.grown) fun h => h.grown
  have hleaves : n.graphLeaves = L := hstart.elim (fun h => h.leaves) fun h => h.leaves
  cases a with
  | putArtifact doc stampRev newVersion =>
    refine hsafe ⟨fun d hd => mark_docAdm fun hs origin seq hv => hgrown.above (h hs origin seq ?_),
      fun _ _ _ _ => trivial⟩
    rcases hd with rfl | ⟨v, rfl⟩
    · exact hv
    · rwa [Doc.get_set_of_ne _ _ (by decide), Doc.get_set_of_ne _ _ (by decide)] at hv
  | putMany docs batch stampRev onUnordered =>
    cases stampRev with
    | true =>
      exact hsafe fun doc _ => ⟨mark_docAdm fun hf => (nomatch hf), fun hf => (nomatch hf)⟩
    | false =>
      refine bears_discard (bears_bulk batch fun p hp => mark_putOne fun origin seq ht => ?_)
      exact hgrown.above (h rfl p hp origin seq ht)
  | addEdges edges batch stampRev =>
    cases stampRev with
    | true =>
      exact hsafe fun e _ => ⟨mark_edgeAdm fun hf => (nomatch hf), fun hf => (nomatch hf)⟩
    | false =>
      refine bears_discard (bears_get (bears_bulk batch fun p hp hin => ?_))
      have hl : p.1.EdgeLeaves n.graphLeaves := .inr (.inl (hleaves.trans hin.leaves.symm))
      exact mark_addOne hl (fun origin seq ht => hgrown.above (h rfl p hp origin seq ht)) hin
  | deleteEdge src dst label => exact hsafe trivial
  | deleteEdgesTouching node => exact hsafe trivial
  | deleteArtifact id => exact hsafe trivial
  | evictArtifact id => exact hsafe trivial
  | relabelState => exact hquiet trivial h
  | tryClaim => exact hquiet trivial h
  | renewLease => exact hquiet trivial h
  | release => exact hquiet trivial h
  | settle => exact hquiet trivial h
  | transaction acts raises => exact ha.elim

/-! ### Origins named like a total -/

/-- A consumed document names no origin that reads like a total. -/
def PlainDoc (stampRev : Bool) (doc : Doc) : Prop :=
  stampRev = false → ∀ o ∈ markReserved, doc.get "_origin" ≠ .str o

def PlainEdge (stampRev : Bool) (e : EdgeSpec) : Prop :=
  stampRev = false → ∀ o ∈ markReserved, e.props.get "_origin" ≠ .str o

def plainAdm : Adm where
  consumedVertex _ _ _ := True
  authoredVertex _ _ := True
  consumedEdge _ _ _ := True
  authoredEdge _ _ _ := True
  observed o _ := o ∉ markReserved
  evict := True
  patch := True

theorem plain_admission : Admission plainAdm PlainDoc PlainEdge True where
  put := by
    intro b d h
    refine ⟨fun d' _ aid _ origin seq s leaf prev row _ => ⟨fun _ _ => trivial, fun _ _ _ => trivial⟩, ?_⟩
    intro hb origin s hv hres
    exact h hb origin hres (incomingVersion_asInt hv).1
  add := by
    intro b a h
    refine ⟨fun e _ hash _ => ⟨fun _ _ _ _ _ _ _ => trivial, fun _ _ _ _ _ _ _ _ => trivial⟩, ?_⟩
    intro hb e he origin s hv hres
    exact h e he hb origin hres (incomingVersion_asInt hv).1
  evict := id
  patch := trivial

theorem plain_insert {t : Table String SeqRow} (h : ∀ x ∈ markReserved, t.lookup x = none)
    (ho : o ∉ markReserved) (r : SeqRow) : ∀ x ∈ markReserved, (t.insert o r).lookup x = none := by
  intro x hx
  have hne : x ≠ o := by
    rintro rfl
    exact ho hx
  rw [AList.lookup_insert_ne hne]
  exact h x hx

/-- Only this node and observed origins get a number. -/
def plainWatch : Watch where
  inside n := n.origin.val ∉ markReserved ∧ n.db.Plain
  outside n := n.origin.val ∉ markReserved ∧ n.db.Plain
  opens := fun _ h => h
  commits := by
    intro m h _
    unfold Node.flushed
    split
    · exact ⟨h.1, plain_insert h.2 h.1 _⟩
    · exact h
  aborts := fun n m h he => ⟨fun hm => h.1 ((congrArg Subtype.val he.origin) ▸ hm), h.2⟩
  undoes := fun n m h he => ⟨fun hm => h.1 ((congrArg Subtype.val he.origin) ▸ hm), h.2⟩

theorem plain_micro (h : plainWatch.inside n) (hm : Micro plainAdm n n') : plainWatch.inside n' := by
  refine ⟨fun hres => h.1 (congrArg Subtype.val hm.sameEnv.origin ▸ hres), ?_⟩
  unfold Store.Plain
  rcases hm.clock.1 with hs | ⟨o, s, ho, hs⟩
  · rw [hs]
    exact h.2
  · rw [hs]
    exact plain_insert h.2 ho _

theorem plain_run (acts : List Act) {n : Node} (h : plainWatch.outside n) (hi : n.inTxn = false)
    (ha : ∀ a ∈ acts, a.Forall PlainDoc PlainEdge True) : (n.run acts).db.Plain := by
  have hP : plainAdm.Places := fun _ _ => (plain_admission.add true _ fun _ _ hf => (nomatch hf)).1
  have hsteps := run_steps hP (fun _ _ _ => trivial) acts n
    (fun a hm => admits_of_forall plain_admission a (ha a hm)) hi
  exact (steps_induct (fun _ _ => step_outside fun _ _ => plain_micro) hsteps h).2

/-! ### Two moments of a run -/

/-- **An unchanged mark means an unchanged store**, between two moments of a run whose steps all meet the condition. -/
theorem unchanged_mark_unchanged_store (origin : Origin) (leaves : ℕ+) (before between : List Act)
    (ho : origin.val ∉ markReserved)
    (hplain : ∀ a ∈ before ++ between, a.Forall PlainDoc PlainEdge True)
    (hmarks : ((Node.fresh origin leaves).run before).RunMeetsAt (fun n a => a.Marks n) between)
    (hmark : writeMark ((Node.fresh origin leaves).run before).db =
      writeMark ((Node.fresh origin leaves).run (before ++ between)).db) :
    SameContent ((Node.fresh origin leaves).run before).db
      ((Node.fresh origin leaves).run (before ++ between)).db := by
  have hfresh : plainWatch.outside (Node.fresh origin leaves) := ⟨ho, fun _ _ => rfl⟩
  have hpa := plain_run before hfresh rfl fun a ha => hplain a (by simp [ha])
  have hpb := plain_run (before ++ between) hfresh rfl hplain
  obtain ⟨hta, hi⟩ := total_run before (Node.fresh origin leaves) totalInv_empty rfl
  have htb := (total_run (before ++ between) (Node.fresh origin leaves) totalInv_empty rfl).1
  rw [run_append] at hmark hpb htb ⊢
  set n := (Node.fresh origin leaves).run before with hn
  have hstart : MarkOut n.origin n.graphLeaves n.db n :=
    ⟨rfl, rfl, Grown.refl _, .inr (Within.refl _)⟩
  have hend := (bears_run mark_single between n hmarks hstart hi).1
  exact sameContent_of_mark hta htb hpa hpb hmark hend.moved

def peerRow (id : String) (seq : ℤ) (title : String) : Doc :=
  [("id", .str id), ("_origin", .str "peer"), ("_seq", .int seq), ("title", .str title)]

def lateArrival : List Act :=
  [.putMany [peerRow "x" 1 "old", peerRow "y" 5 "y"] 256 false .keepLocal]

theorem unchanged_mark_redelivered :
    SameContent ((Node.fresh ⟨"here", by decide⟩ 4096).run lateArrival).db
      ((Node.fresh ⟨"here", by decide⟩ 4096).run
        (lateArrival ++ [.putMany [peerRow "y" 5 "y"] 256 false .keepLocal])).db := by
  refine unchanged_mark_unchanged_store ⟨"here", by decide⟩ 4096 lateArrival
    [.putMany [peerRow "y" 5 "y"] 256 false .keepLocal] (by decide) ?_ ?_ (by decide +kernel)
  · intro a ha
    simp only [lateArrival, List.cons_append, List.nil_append, List.mem_cons, List.not_mem_nil, or_false] at ha
    rcases ha with rfl | rfl
    all_goals
      simp [Act.Forall, PlainDoc, markReserved, peerRow, Doc.get, Doc.find?, cVertexTotal, cEdgeTotal]
  · refine ⟨(Act.meetsAt_single (P := fun n a => a.Marks n)
      (a := .putMany [peerRow "y" 5 "y"] 256 false .keepLocal) trivial _).mpr ?_, trivial⟩
    rintro - p hp origin seq ⟨ht, -⟩
    -- the one item is met in the state the run before it left, which holds it already
    have hp' : p = (((Node.fresh ⟨"here", by decide⟩ 4096).run lateArrival).enter, peerRow "y" 5 "y") := by
      have hchunks : chunked 256 [] [peerRow "y" 5 "y"] = [[peerRow "y" 5 "y"]] := rfl
      rw [hchunks, bulkHandled] at hp
      split at hp <;> simpa [chunkHandled, bulkHandled] using hp
    rw [hp', Node.enter_db] at ht
    have hnone : (oneRows ((Node.fresh ⟨"here", by decide⟩ 4096).run lateArrival).db false .keepLocal
      (peerRow "y" 5 "y")).length = 0 := by decide +kernel
    rw [ht] at hnone
    cases hnone

theorem lateRow_unmarked :
    ¬ ∀ before between : List Act,
      writeMark ((Node.fresh ⟨"here", by decide⟩ 4096).run before).db =
        writeMark ((Node.fresh ⟨"here", by decide⟩ 4096).run (before ++ between)).db →
      SameContent ((Node.fresh ⟨"here", by decide⟩ 4096).run before).db
        ((Node.fresh ⟨"here", by decide⟩ 4096).run (before ++ between)).db := by
  intro h
  have hsame := (h lateArrival [.putMany [peerRow "x" 3 "new"] 256 false .keepLocal]
    (by decide +kernel)).vertex "x"
  have hseq := congrArg (Option.map VRow.seq) hsame
  revert hseq
  decide +kernel

end Mantle
