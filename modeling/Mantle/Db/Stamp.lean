import Mantle.Db.Mark

/-!
# Mantle.Db.Stamp — the freshness stamps of one node's edges and of one content type

A stamp is a count and the largest number among rows of several origins.  Equal and exhaustive, it shows the same rows,
as long as every row written since is numbered above that largest number.
-/

namespace Mantle

open Tx Relation

variable {arg : EdgeArg} {cap k : ℕ} {hi : ℤ} {node : String} {onUnordered : OnUnordered}
  {seq : Val} {α : Type}

variable {doc : Doc} {leaf : ℕ} {leaves : ℕ+} {origin : String}

/-! ### Invariants of rows that survive when rows leave -/

/-- The invariant survives when rows leave. -/
def Shrinks (I : Store → Prop) : Prop := ∀ a b, Within a b → I a → I b

theorem Shrinks.seqFree {I : Store → Prop} (hI : Shrinks I) : SeqFree I :=
  fun db _ h => hI db _ ⟨fun _ _ h => h, fun _ _ h => h⟩ h

theorem flushed_sameTables (n : Node) : SameTables n.db n.flushed.db := by
  unfold Node.flushed
  split <;> exact ⟨rfl, rfl⟩

theorem flushed_graphLeaves (n : Node) : n.flushed.graphLeaves = n.graphLeaves := by
  unfold Node.flushed
  split <;> rfl

/-- The allocator that handed out a number will write it. -/
def Node.Settled (n : Node) : Prop := n.cache.isSome = true → n.dirty = true

theorem Micro.settled {A : Adm} {n n' : Node} (h : n.Settled) (hm : Micro A n n') : n'.Settled := by
  intro hs
  rcases hm.clock.2 with he | ⟨hd, -⟩
  · rw [he] at hs
    exact hm.sameEnv.dirty (h hs)
  · exact hd

section Rows

variable {L : ℕ+} {I : Store → Prop} {α : Type} {n : Node}

def rowsWatch (L : ℕ+) (I : Store → Prop) (hI : Shrinks I) : Watch where
  inside n := n.graphLeaves = L ∧ n.Settled ∧ I n.db
  outside n := n.graphLeaves = L ∧ I n.db
  opens := fun _ h => ⟨h.1, fun hs => (nomatch hs), h.2⟩
  commits := fun m h _ =>
    ⟨(flushed_graphLeaves m).trans h.1, hI m.db _ (flushed_sameTables m).content.within h.2.2⟩
  aborts := fun _ _ h he => ⟨he.graphLeaves.trans h.1, h.2⟩
  undoes := fun _ _ h he => ⟨he.graphLeaves.trans h.1, fun hs => he.dirty (h.2.1 hs), h.2.2⟩

variable {hI : Shrinks I}

theorem bearsIn_rows {m : DbM α} (h : Inner .any m n)
    (hr : I n.db → Runs m n (fun _ n' => I n'.db) fun _ => True) : BearsIn (rowsWatch L I hI) m n := by
  rintro ⟨hl, hs, hdb⟩
  refine (Runs.and h (hr hdb)).mono ?_ fun _ he => he.1
  rintro _ n' ⟨hm, hdb'⟩
  exact ⟨⟨(micros_sameEnv hm).graphLeaves.trans hl, micros_induct (fun _ _ => Micro.settled) hm hs, hdb'⟩,
    micros_sameEnv hm⟩

theorem bears_keeps {m : DbM α} (h : Safe .any m n) (hk : Keeps I m n) :
    Bears (rowsWatch L I hI) m n := by
  constructor
  · intro hi
    exact bearsIn_rows (h.1 hi) fun hdb => (hk hdb).mono (fun _ _ h => h.1) fun _ _ => trivial
  · rintro hi ⟨hl, hdb⟩
    refine ((h.2 hi).and (hk hdb)).mono ?_ ?_
    · rintro _ n' ⟨hs, hdb', ht⟩
      exact ⟨⟨(steps_sameLeaves hs).2.trans hl, hdb'⟩, ht.trans hi⟩
    · rintro n' ⟨hs, ht, hdb'⟩
      exact ⟨⟨(steps_sameLeaves hs).2.trans hl, hdb' hi⟩, ht.trans hi⟩

/-- Nothing is accepted and nothing rewritten. -/
def Adm.none : Adm where
  consumedVertex _ _ _ := False
  authoredVertex _ _ := False
  consumedEdge _ _ _ := False
  authoredEdge _ _ _ := False
  observed _ _ := False
  evict := True
  patch := False

theorem none_within {n n' : Node} (hm : Micro .none n n') : Within n.db n'.db := by
  cases hm with
  | retire h => exact (retires_within (ReflTransGen.single h)).2.2
  | observe h => exact h.elim
  | task => exact ⟨fun _ _ h => h, fun _ _ h => h⟩
  | patch h => exact h.elim
  | env => exact Within.refl _
  | authorVertex h => exact h.elim
  | consumeVertex h => exact h.elim
  | authorEdge h => exact h.elim
  | consumeEdge h => exact h.elim
  | @drop n₁ aid r hr h =>
    exact ((within_eraseVertex _ _).trans (retires_within h).2.2).trans
      (settleVertex_frame n₁.db aid r true).2.content.within
  | @evict aid r hA hr =>
    exact (within_eraseVertex _ _).trans
      (settleVertex_frame (n.db.eraseVertex aid) aid r false).2.content.within

theorem bears_deletes {m : DbM α} (h : Safe .none m n) : Bears (rowsWatch L I hI) m n := by
  refine bears_safe ?_ h
  rintro n n' ⟨hl, hs, hdb⟩ hm
  exact ⟨hm.sameEnv.graphLeaves.trans hl, hm.settled hs, hI _ _ (none_within hm) hdb⟩

theorem keeps_sameContent (hI : Shrinks I) {m : DbM α} (h : Safe .any m n)
    (hs : Runs m n (fun _ n' => SameContent n.db n'.db)
      fun n' => n.inTxn = false → SameContent n.db n'.db) : Keeps I m n := by
  intro hdb
  have henv : Runs m n (fun _ n' => n'.inTxn = n.inTxn) fun n' => n'.inTxn = n.inTxn := by
    by_cases hi : n.inTxn = true
    · exact (Inner.sameEnv (h.1 hi)).mono (fun _ _ he => he.inTxn) fun _ he => he.inTxn
    · rw [Bool.not_eq_true] at hi
      exact (h.2 hi).mono (fun _ _ hs => (steps_inTxn hs hi).trans hi.symm)
        fun _ hs => (steps_inTxn hs hi).trans hi.symm
  refine (henv.and hs).mono ?_ ?_
  · rintro _ n' ⟨ht, hc⟩
    exact ⟨hI _ _ hc.within hdb, ht⟩
  · rintro n' ⟨ht, hc⟩
    exact ⟨ht, fun hi => hI _ _ (hc hi).within hdb⟩

end Rows

/-! ### Numbers of this node above a bound -/

def Node.reached (n : Node) : ℤ := n.cache.getD (n.db.highWater n.origin)

theorem maxSeq_nonneg (rows : List (String × ℤ)) (origin : String) : 0 ≤ Store.maxSeq rows origin := by
  unfold Store.maxSeq
  have hfold : ∀ (xs : List (String × ℤ)) (best : ℤ), best ≤ xs.foldl (fun best e => max best e.2) best := by
    intro xs
    induction xs with
    | nil => exact fun best => le_refl best
    | cons e xs ih => exact fun best => (le_max_left best e.2).trans (ih _)
  exact hfold _ 0

theorem le_highWater_persist (db : Store) (origin : String) (c : ℤ) :
    c ≤ (db.persist origin c).highWater origin := by
  unfold Store.highWater Store.persist
  rw [AList.lookup_insert]
  cases db.seqCounter.lookup origin with
  | none => exact le_refl c
  | some r => exact le_max_right _ _

theorem Node.reached_le_issued (n : Node) : n.reached ≤ n.issued := by
  unfold Node.reached Node.issued
  cases n.cache with
  | some c => exact le_refl c
  | none =>
    simp only [Option.getD_none]
    unfold Store.highWater Store.load
    cases n.db.seqCounter.lookup n.origin.val with
    | some r => exact le_refl _
    | none => exact le_max_of_le_left (maxSeq_nonneg _ _)

section Armed

variable {L : ℕ+} {I : Store → Prop} {hI : Shrinks I} {M : ℤ} {A : Adm} {α : Type} {n n' : Node}

/-- The invariant while this node's own numbers are above the bound. -/
def armedWatch (L : ℕ+) (I : Store → Prop) (hI : Shrinks I) (M : ℤ) : Watch where
  inside n := (rowsWatch L I hI).inside n ∧ M ≤ n.reached
  outside n := (rowsWatch L I hI).outside n ∧ M ≤ n.db.highWater n.origin
  opens := fun n h => ⟨(rowsWatch L I hI).opens n h.1, h.2⟩
  commits := by
    rintro m ⟨h, hM⟩ hc
    refine ⟨(rowsWatch L I hI).commits m h hc, ?_⟩
    unfold Node.reached at hM
    unfold Node.flushed
    cases hcache : m.cache with
    | none =>
      rw [hcache] at hM
      cases m.dirty <;> exact hM
    | some c =>
      have hd : m.dirty = true := h.2.1 (by rw [hcache]; rfl)
      rw [hcache] at hM
      rw [hd]
      exact hM.trans (le_highWater_persist m.db m.origin c)
  aborts := fun n m h he => ⟨(rowsWatch L I hI).aborts n m h.1 he,
    h.2.trans (le_of_eq (congrArg (fun o : Origin => n.db.highWater o) he.origin.symm))⟩
  undoes := by
    rintro n m ⟨h, hM⟩ he
    refine ⟨(rowsWatch L I hI).undoes n m h he, ?_⟩
    unfold Node.reached rollbackTo at *
    rw [show m.origin = n.origin from he.origin]
    exact hM

theorem armed_micro (hobs : ∀ o s, ¬A.observed o s)
    (hrows : ∀ n n', M ≤ n.reached → I n.db → Micro A n n' → I n'.db)
    (h : (armedWatch L I hI M).inside n) (hm : Micro A n n') : (armedWatch L I hI M).inside n' := by
  obtain ⟨⟨hl, hs, hdb⟩, hM⟩ := h
  refine ⟨⟨hm.sameEnv.graphLeaves.trans hl, hm.settled hs, hrows n n' hM hdb hm⟩, ?_⟩
  have hseq : n'.db.seqCounter = n.db.seqCounter := by
    rcases hm.clock.1 with he | ⟨o, s, ho, -⟩
    · exact he
    · exact absurd ho (hobs o s)
  rcases hm.clock.2 with he | ⟨-, he⟩
  · unfold Node.reached Store.highWater at hM ⊢
    rw [he, hseq, hm.sameEnv.origin]
    exact hM
  · have hle := n.reached_le_issued
    unfold Node.reached at hM ⊢
    rw [he]
    simp only [Option.getD_some]
    unfold Node.reached at hle
    omega

theorem bearsIn_armed {m : DbM α} (hM : M ≤ n.reached) (h : BearsIn (armedWatch L I hI M) m n) :
    BearsIn (rowsWatch L I hI) m n := fun hin =>
  (h ⟨hin, hM⟩).mono (fun _ _ hq => ⟨hq.1.1, hq.2⟩) fun _ he => he

theorem bears_armed {m : DbM α} (hM : M ≤ n.enter.reached) (h : Bears (armedWatch L I hI M) m n) :
    Bears (rowsWatch L I hI) m n := by
  unfold Node.enter at hM
  constructor
  · intro hi
    rw [if_pos hi] at hM
    exact bearsIn_armed hM (h.1 hi)
  · intro hi hout
    rw [if_neg (by simp [hi])] at hM
    exact (h.2 hi ⟨hout, hM⟩).mono (fun _ _ hq => ⟨hq.1.1, hq.2⟩) fun _ hq => ⟨hq.1.1, hq.2⟩

end Armed

/-! ### The rows of one content type -/

def OfType (ct : String) (doc : Doc) : Prop :=
  ∃ c, bindText (doc.get "content_type") = .ok c ∧ c.eqStr ct = true

def NumberedRows (ct : String) (M : ℤ) (excused : String → VRow → Prop) (db : Store) : Prop :=
  ∀ id r, db.vertex.lookup id = some r → r.ct.eqStr ct = true → excused id r ∨ M < r.seq

/-- A row of the type that is written gets a number above the bound, and no document is rewritten in place. -/
def Act.Numbers (ct : String) (M : ℤ) (n : Node) : Act → Prop
  | .putArtifact doc true newVersion =>
      (∀ d ∈ putRows n.db doc true newVersion, ¬OfType ct d) ∨ M ≤ n.enter.reached
  | .putArtifact doc false _ => OfType ct doc → ∀ origin seq,
      incomingVersion (doc.get "_origin") (doc.get "_seq") = some (origin, seq) → M < seq
  | .putMany docs batch true onUnordered =>
      ∀ p ∈ bulkHandled (putOne true onUnordered) n (chunked batch [] docs),
        OfType ct p.2 → M ≤ p.1.reached
  | .putMany docs batch false onUnordered =>
      ∀ p ∈ bulkHandled (putOne false onUnordered) n (chunked batch [] docs),
        OfType ct p.2 → ∀ origin seq, TakesDoc onUnordered p.1.db p.2 origin seq → M < seq
  | a => a.Unpatching n.db

section Types

variable {ct : String} {M : ℤ} {excused : String → VRow → Prop} {L : ℕ+} {n n' : Node}

theorem numberedRows_shrinks : Shrinks (NumberedRows ct M excused) :=
  fun _ _ hw h id r hr => h id r (hw.vertex id r hr)

theorem NumberedRows.insert {db db' : Store} (h : NumberedRows ct M excused db) {aid : String} {row : VRow}
    (hv : db'.vertex = db.vertex.insert aid row) (hrow : row.ct.eqStr ct = true → M < row.seq) :
    NumberedRows ct M excused db' := by
  intro id r hr hct
  rw [hv, Table.lookup_insert_of] at hr
  split_ifs at hr with hid
  · cases hr
    exact .inr (hrow hct)
  · exact h id r hr hct

theorem NumberedRows.of_vertex {db db' : Store} (h : NumberedRows ct M excused db)
    (hv : db'.vertex = db.vertex) : NumberedRows ct M excused db' := by
  unfold NumberedRows
  rw [hv]
  exact h

theorem vertexRow_ofType {prev : Option VRow} {s : ℤ} {row : VRow}
    (hrow : vertexRow (stampedDoc doc origin seq prev) origin s leaf = .ok row) (p : Option VRow)
    (hct : (upsertVertex p row).ct.eqStr ct = true) : OfType ct doc := by
  have hc := vertexRow_ct hrow
  rw [stampedDoc_get (by decide)] at hc
  refine ⟨row.ct, hc, ?_⟩
  cases p <;> exact hct

/-- While this node's numbers are above the bound, its own rows are free. -/
def authorAdm : Adm where
  consumedVertex _ _ _ := False
  authoredVertex _ _ := True
  consumedEdge _ _ _ := False
  authoredEdge _ _ _ := True
  observed _ _ := False
  evict := True
  patch := False

theorem author_places : authorAdm.Places := by
  intro cid aid e _ h _
  exact ⟨fun _ _ _ _ _ _ _ => trivial, fun hf => (nomatch hf)⟩

theorem author_docAdm (doc : Doc) : DocAdm authorAdm true doc := by
  intro aid _ origin seq s leaf prev row _
  exact ⟨fun _ _ => trivial, fun hf => (nomatch hf)⟩

theorem author_rows (hM : M ≤ n.reached) (h : NumberedRows ct M excused n.db)
    (hm : Micro authorAdm n n') : NumberedRows ct M excused n'.db := by
  have hissued := n.reached_le_issued
  cases hm with
  | retire hr => exact numberedRows_shrinks _ _ (retires_within (ReflTransGen.single hr)).2.2 h
  | observe hA => exact hA.elim
  | task => exact h
  | patch hA => exact hA.elim
  | env => exact h
  | @authorVertex aid row _ _ hs =>
    refine h.insert (Store.acceptVertex_tables n.db aid row (.int row.seq)).1 fun _ => ?_
    omega
  | consumeVertex hA => exact hA.elim
  | authorEdge => exact h.of_vertex (Store.acceptEdge_tables _ _ _ _ _).2
  | consumeEdge hA => exact hA.elim
  | @drop n₁ aid r hr hret =>
    refine numberedRows_shrinks _ _ ?_ h
    exact ((within_eraseVertex _ _).trans (retires_within hret).2.2).trans
      (settleVertex_frame n₁.db aid r true).2.content.within
  | @evict aid r hA hr =>
    refine numberedRows_shrinks _ _ ?_ h
    exact (within_eraseVertex _ _).trans
      (settleVertex_frame (n.db.eraseVertex aid) aid r false).2.content.within

theorem armed_author (n n' : Node)
    (h : (armedWatch L (NumberedRows ct M excused) numberedRows_shrinks M).inside n)
    (hm : Micro authorAdm n n') :
    (armedWatch L (NumberedRows ct M excused) numberedRows_shrinks M).inside n' :=
  armed_micro (fun _ _ ho => ho) (fun _ _ => author_rows) h hm

theorem NumberedRows.rowWritten {db db' : Store} (h : NumberedRows ct M excused db)
    (hw : RowWritten node doc origin seq db db') (hrow : OfType ct doc → ∀ s, seq.asInt = some s → M < s) :
    NumberedRows ct M excused db' := by
  obtain ⟨aid, s, leaf, row, m, -, hs, hr, hv, -, hplace⟩ := hw.row
  have hm : NumberedRows ct M excused m := by
    refine h.insert hv fun hct => ?_
    rw [(upsertVertex_fields _ row).2.1, (vertexRow_ok hr).2.1]
    exact hrow (vertexRow_ofType hr _ hct) s hs
  rcases hplace with ⟨hsame, -⟩ | ⟨cid, aid', seq', leaf', erow, -, -, -, hw'⟩
  · exact hm.of_vertex hsame.vertex
  · exact hm.of_vertex hw'.vertex

theorem any_putOne (stampRev : Bool) (onUnordered : OnUnordered) (doc : Doc) (n : Node) :
    Inner .any (putOne stampRev onUnordered doc) n :=
  inner_putOne any_places ⟨docAdm_any _ _, fun _ _ _ _ => trivial⟩ onUnordered n

theorem numbers_putOne_consumed
    (h : OfType ct doc → ∀ origin seq, TakesDoc onUnordered n.db doc origin seq → M < seq) :
    BearsIn (rowsWatch L (NumberedRows ct M excused) numberedRows_shrinks)
      (putOne false onUnordered doc) n := by
  refine bearsIn_rows (any_putOne _ _ _ _) fun hdb => ?_
  refine (putOne_tables onUnordered doc n).imp ?_
  rintro k n' ⟨-, ⟨-, hs⟩ | ⟨htaken, origin, s, hv, hw⟩⟩
  · exact hdb.of_vertex hs.vertex
  · refine hdb.rowWritten hw fun hct s' hs' => ?_
    have : s = s' := by
      rw [(incomingVersion_asInt hv).2] at hs'
      exact Option.some.inj hs'
    exact this ▸ h hct origin s ⟨htaken, hv⟩

theorem numbers_putOne_authored (h : OfType ct doc → M ≤ n.reached) :
    BearsIn (rowsWatch L (NumberedRows ct M excused) numberedRows_shrinks)
      (putOne true onUnordered doc) n := by
  by_cases hct : OfType ct doc
  · refine bearsIn_armed (h hct) (bearsIn_inner armed_author ?_)
    exact inner_putOne author_places ⟨author_docAdm doc, fun hf => (nomatch hf)⟩ onUnordered n
  · refine bearsIn_rows (any_putOne _ _ _ _) fun hdb => ?_
    unfold putOne
    refine runs_ite (fun _ => runs_throw trivial) fun _ => ?_
    refine runs_bind ((quiet_versionFor doc true n).imp ?_)
    intro v n₁ h₁
    refine (putWritten_tables doc v n₁).imp ?_
    rintro k n' ⟨-, hw⟩
    exact (hdb.of_vertex h₁.tables.vertex).rowWritten hw fun h' => absurd h' hct

theorem numbered_rowRules : RowRules (NumberedRows ct M excused) fun d => ¬OfType ct d where
  seq := numberedRows_shrinks.seqFree
  conflict := fun _ h => ⟨h, h⟩
  accept := fun _ _ _ _ _ _ _ _ _ _ h => h.of_vertex (Store.acceptEdge_tables _ _ _ _ _).2
  retire := fun _ _ _ _ _ h => h
  row := by
    intro db aid doc origin seq s leaf row t hok _ _ _ hrow _ h
    refine h.insert (Store.rowStored_rows _ _ _ _ _ _).1 fun hct => ?_
    exact absurd (vertexRow_ofType hrow _ hct) hok
  reparent := by
    rintro doc v h ⟨c, hc, hct⟩
    rw [Doc.get_set_of_ne _ _ (by decide)] at hc
    exact h ⟨c, hc, hct⟩

theorem any_putConsumed (doc : Doc) (n : Node) : Inner .any (putConsumed doc) n := by
  refine runs_bind ((versionFor_consumed doc n).imp ?_)
  rintro ⟨origin, seq⟩ n' ⟨rfl, s, hv, rfl⟩
  exact inner_observeIncoming (fun _ _ _ => trivial) hv
    (inner_consume any_places (docAdm_any _ _) hv (observe_lookup _ _ _))

/-- **One call.** -/
theorem numbers_single (a : Act) (n : Node) (ha : a.Single) (h : a.Numbers ct M n) :
    Bears (rowsWatch L (NumberedRows ct M excused) numberedRows_shrinks) (exec a) n := by
  have hquiet : ∀ {a : Act}, a.Patches → a.Unpatching n.db →
      Bears (rowsWatch L (NumberedRows ct M excused) numberedRows_shrinks) (exec a) n := fun hp hu =>
    bears_keeps (unpatching_sameContent hp hu).1
      (keeps_sameContent numberedRows_shrinks (unpatching_sameContent hp hu).1
        (unpatching_sameContent hp hu).2)
  cases a with
  | putArtifact doc stampRev newVersion =>
    cases stampRev with
    | true =>
      rcases h with hno | hM
      · refine bears_keeps (safe_discard (safe_putArtifact any_places any_snapshots ?_ newVersion n))
          (keeps_discard (keeps_putArtifact numbered_rowRules hno))
        exact ⟨fun _ _ => docAdm_any _ _, fun _ _ _ _ => trivial⟩
      · refine bears_armed hM (bears_safe armed_author (safe_discard (safe_putArtifact author_places
          (fun _ _ _ => trivial) ⟨fun d _ => author_docAdm d, fun hf => (nomatch hf)⟩ newVersion n)))
    | false =>
      refine bears_discard ?_
      rw [putArtifact_consumed]
      refine bears_ite (fun _ => bears_throw _ n) fun _ => bears_write ?_
      refine bearsIn_rows (any_putConsumed doc _) fun hdb => ?_
      refine (putConsumed_tables doc n.enter).imp ?_
      rintro _ n' ⟨origin, s, hv, hw⟩
      refine hdb.rowWritten hw fun hct s' hs' => ?_
      have : s = s' := by
        rw [(incomingVersion_asInt hv).2] at hs'
        exact Option.some.inj hs'
      exact this ▸ h hct origin s hv
  | putMany docs batch stampRev onUnordered =>
    cases stampRev with
    | true => exact bears_discard (bears_bulk batch fun p hp => numbers_putOne_authored (h p hp))
    | false => exact bears_discard (bears_bulk batch fun p hp => numbers_putOne_consumed (h p hp))
  | addEdges edges batch stampRev =>
    refine bears_keeps (safe_discard (safe_addEdges (fun e _ => ?_) batch n)) (keeps_discard ?_)
    · exact ⟨edgeAdm_any _ _, fun _ _ _ _ _ _ => trivial⟩
    · exact keeps_addEdges (@numbered_rowRules ct M excused).toEdgeRules edges batch stampRev n
  | deleteEdge src dst label => exact bears_deletes (safe_discard (safe_deleteEdge src dst label n))
  | deleteEdgesTouching node => exact bears_deletes (safe_discard (safe_deleteEdgesTouching node n))
  | deleteArtifact id => exact bears_deletes (@safe_deleteArtifact .none true (fun _ => trivial) id n)
  | evictArtifact id => exact bears_deletes (@safe_deleteArtifact .none false (fun _ => trivial) id n)
  | relabelState => exact hquiet trivial h
  | tryClaim => exact hquiet trivial h
  | renewLease => exact hquiet trivial h
  | release => exact hquiet trivial h
  | settle => exact hquiet trivial h
  | transaction acts raises => exact ha.elim

end Types

/-! ### The edges on one side of a node -/

inductive EdgeEnd
  | source
  | target
deriving DecidableEq, Repr

/-- `direction`: `out` seeks the source, `in` the destination. -/
def EdgeEnd.ofDirection : String → Except PyErr EdgeEnd
  | "out" => .ok .source
  | "in" => .ok .target
  | d => .error (.valueError ("direction must be out|in, got " ++ reprStr d))

def ERow.at (r : ERow) : EdgeEnd → String
  | .source => r.src
  | .target => r.dst

def EdgeSpec.at (e : EdgeSpec) : EdgeEnd → String
  | .source => e.src
  | .target => e.dst

def Store.lands (db : Store) (e : EdgeSpec) (side : EdgeEnd) : String :=
  match db.edge.lookup (edgeKey e.src e.dst e.label) with
  | some o => o.at side
  | none => e.at side

def NumberedEdges (side : EdgeEnd) (node : String) (M : ℤ) (db₀ db : Store) : Prop :=
  ∀ key r, db.edge.lookup key = some r → r.at side = node → db₀.edge.lookup key = some r ∨ M < r.seq

/-- The condition on the calls that write and delete edges: an edge that lands on the side gets a number
above the bound. -/
def Act.NumbersEdges (side : EdgeEnd) (node : String) (M : ℤ) (n : Node) : Act → Prop
  | .addEdges edges batch true =>
      ∀ p ∈ bulkHandled (fun e => addOne n.graphLeaves e true) n (chunked batch [] edges),
        ∀ e, unpack p.2 = .ok e → p.1.db.lands e side = node → M ≤ p.1.reached
  | .addEdges edges batch false =>
      ∀ p ∈ bulkHandled (fun e => addOne n.graphLeaves e false) n (chunked batch [] edges),
        ∀ e, unpack p.2 = .ok e → p.1.db.lands e side = node →
          ∀ origin seq, TakesEdge p.1.db p.2 origin seq → M < seq
  | .deleteEdge .. | .deleteEdgesTouching .. | .deleteArtifact .. | .evictArtifact .. => True
  | _ => False

variable {row : ERow}

variable {e : EdgeSpec}

section Sides

variable {side : EdgeEnd} {node : String} {M : ℤ} {db₀ : Store} {L : ℕ+} {n n' : Node}

theorem numberedEdges_shrinks : Shrinks (NumberedEdges side node M db₀) :=
  fun _ _ hw h key r hr => h key r (hw.edge key r hr)

theorem NumberedEdges.insert {db db' : Store} (h : NumberedEdges side node M db₀ db) {key : EdgeKey}
    (he : db'.edge = db.edge.insert key row) (hrow : row.at side = node → M < row.seq) :
    NumberedEdges side node M db₀ db' := by
  intro k r hr hside
  rw [he, Table.lookup_insert_of] at hr
  split_ifs at hr with hk
  · cases hr
    exact .inr (hrow hside)
  · exact h k r hr hside

theorem NumberedEdges.of_edge {db db' : Store} (h : NumberedEdges side node M db₀ db)
    (he : db'.edge = db.edge) : NumberedEdges side node M db₀ db' := by
  unfold NumberedEdges
  rw [he]
  exact h

theorem upsertEdge_lands {db : Store} {seq : ℤ} (hrow : edgeRow e origin seq leaf = .ok row) :
    (upsertEdge (db.edge.lookup (edgeKey e.src e.dst e.label)) row).at side = db.lands e side := by
  unfold Store.lands
  cases db.edge.lookup (edgeKey e.src e.dst e.label) with
  | some o => cases side <;> rfl
  | none =>
    cases side with
    | source => exact edgeRow_src hrow
    | target => exact (edgeRow_endpoints hrow).2

theorem NumberedEdges.edgeWritten {db db' : Store} (h : NumberedEdges side node M db₀ db) {seq : ℤ}
    (hrow : edgeRow e origin seq leaf = .ok row) (hw : EdgeWritten (edgeKey e.src e.dst e.label) row db db')
    (hM : db.lands e side = node → M < seq) :
    NumberedEdges side node M db₀ db' := by
  refine h.insert hw.edge fun hside => ?_
  rw [(upsertEdge_fields _ row).2.1, (edgeRow_ok hrow).2.1]
  exact hM ((upsertEdge_lands hrow).symm.trans hside)

theorem any_addOne (hl : n.EdgeLeaves leaves) (arg : EdgeArg) (stampRev : Bool) :
    Inner .any (addOne leaves arg stampRev) n :=
  inner_addOne (edgeAdm_any _ _) (fun _ _ _ _ _ _ => trivial) hl

theorem addOne_authored (leaves : ℕ+) (arg : EdgeArg) (n : Node) :
    Runs (addOne leaves arg true) n (fun _ n' => ∃ e leaf row, unpack arg = .ok e ∧
      edgeRow e n.origin (n.issued + 1) leaf = .ok row ∧
      EdgeWritten (edgeKey e.src e.dst e.label) row n.db n'.db) fun _ => True := by
  unfold addOne
  refine runs_bind (runs_ofExcept ?_ trivial)
  intro e he
  refine runs_bind (runs_bind (runs_get (runs_pure (runs_bind (runs_get ?_)))))
  refine runs_bind ((allocate_runs n _).imp ?_)
  rintro seq n₁ ⟨rfl, rfl⟩
  refine runs_bind ((writeEdge_tables rfl).imp ?_)
  rintro - n₂ ⟨row, hrow, hw⟩
  exact runs_pure ⟨e, _, row, he, hrow, hw⟩

theorem numbers_addOne_authored (hl : n.EdgeLeaves leaves)
    (h : ∀ e, unpack arg = .ok e → n.db.lands e side = node → M ≤ n.reached) :
    BearsIn (rowsWatch L (NumberedEdges side node M db₀) numberedEdges_shrinks)
      (addOne leaves arg true) n := by
  refine bearsIn_rows (any_addOne hl arg true) fun hdb => ?_
  refine (addOne_authored leaves arg n).imp ?_
  rintro _ n' ⟨e, leaf, row, he, hrow, hw⟩
  refine hdb.edgeWritten hrow hw fun hside => ?_
  have hle := n.reached_le_issued
  have := h e he hside
  omega

theorem numbers_addOne_consumed (hl : n.EdgeLeaves leaves)
    (h : ∀ e, unpack arg = .ok e → n.db.lands e side = node →
      ∀ origin seq, TakesEdge n.db arg origin seq → M < seq) :
    BearsIn (rowsWatch L (NumberedEdges side node M db₀) numberedEdges_shrinks)
      (addOne leaves arg false) n := by
  refine bearsIn_rows (any_addOne hl arg false) fun hdb => ?_
  refine (addOne_handled leaves arg n).imp ?_
  rintro _ n' ⟨-, e, origin, seq, he, hv, ⟨-, hs⟩ | ⟨htaken, leaf, row, hrow, hw⟩⟩
  · exact hdb.of_edge hs.edge
  · exact hdb.edgeWritten hrow hw fun hside => h e he hside origin seq ⟨e, he, hv, htaken⟩

/-- **One edge call** that meets the condition keeps the edges on the side numbered. -/
theorem numbersEdges_single (a : Act) (n : Node) (_ : a.Single) (h : a.NumbersEdges side node M n) :
    Bears (rowsWatch L (NumberedEdges side node M db₀) numberedEdges_shrinks) (exec a) n := by
  refine bears_of fun hstart => ?_
  have hleaves : n.graphLeaves = L := hstart.elim (fun h => h.1) fun h => h.1
  cases a with
  | addEdges edges batch stampRev =>
    cases stampRev with
    | true =>
      refine bears_discard (bears_get (bears_bulk batch fun p hp hin => ?_))
      have hl : p.1.EdgeLeaves n.graphLeaves := .inr (.inl (hleaves.trans hin.1.symm))
      exact numbers_addOne_authored hl (h p hp) hin
    | false =>
      refine bears_discard (bears_get (bears_bulk batch fun p hp hin => ?_))
      have hl : p.1.EdgeLeaves n.graphLeaves := .inr (.inl (hleaves.trans hin.1.symm))
      exact numbers_addOne_consumed hl (h p hp) hin
  | deleteEdge src dst label => exact bears_deletes (safe_discard (safe_deleteEdge src dst label n))
  | deleteEdgesTouching node => exact bears_deletes (safe_discard (safe_deleteEdgesTouching node n))
  | deleteArtifact id => exact bears_deletes (@safe_deleteArtifact .none true (fun _ => trivial) id n)
  | evictArtifact id => exact bears_deletes (@safe_deleteArtifact .none false (fun _ => trivial) id n)
  | _ => exact h.elim

end Sides

/-! ### The stamps -/

/-- What a stamp shows of the numbers it read: how many up to the cap, the largest, and whether that was
all. -/
def countAndTop (seqs : List ℤ) (cap : ℕ) : ℕ × ℤ × Bool :=
  (min seqs.length cap, seqs.foldl (fun hi v => if v > hi then v else hi) 0, decide (seqs.length ≤ cap))

/-- The rows with `node` at that side, as one query reads them. -/
def sideRows (db : Store) (side : EdgeEnd) (node : String) : List (EdgeKey × ERow) :=
  db.edge.toPairs.filter fun e => e.2.at side = node

/-- `edge_mark(node_id, direction=…, cap=…)`. -/
def edgeMark (db : Store) (node direction : String) (cap : ℤ) : Except PyErr (ℕ × ℤ × Bool) := do
  let side ← EdgeEnd.ofDirection direction
  pure (countAndTop (((sideRows db side node).take (cap.toNat + 1)).map fun e => e.2.seq) cap.toNat)

def typeRows (db : Store) (ct : String) : List (String × VRow) :=
  db.vertex.toPairs.filter fun e => e.2.ct.eqStr ct

/-- `content_type_mark(content_type, cap=…)`; the rows are read in the order of their ids. -/
def contentTypeMark (db : Store) (ct : String) (cap : ℤ) : ℕ × ℤ × Bool :=
  countAndTop ((((typeRows db ct).mergeSort fun a b => a.1 ≤ b.1).take (cap.toNat + 1)).map fun e => e.2.seq)
    cap.toNat

theorem le_countAndTop {seqs : List ℤ} {cap : ℕ} : ∀ v ∈ seqs, v ≤ (countAndTop seqs cap).2.1 := by
  have hfold : ∀ (xs : List ℤ) (hi : ℤ),
      hi ≤ xs.foldl (fun hi v => if v > hi then v else hi) hi ∧
        ∀ v ∈ xs, v ≤ xs.foldl (fun hi v => if v > hi then v else hi) hi := by
    intro xs
    induction xs with
    | nil => exact fun hi => ⟨le_refl hi, by simp⟩
    | cons x xs ih =>
      intro hi
      obtain ⟨h1, h2⟩ := ih (if x > hi then x else hi)
      have hhi : hi ≤ if x > hi then x else hi := by split_ifs <;> omega
      have hx : x ≤ if x > hi then x else hi := by split_ifs <;> omega
      refine ⟨hhi.trans h1, fun v hv => ?_⟩
      rcases List.mem_cons.mp hv with rfl | hv
      · exact hx.trans h1
      · exact h2 v hv
  exact (hfold seqs 0).2

theorem take_of_exhaustive {rows : List α} {f : α → ℤ}
    (h : (countAndTop ((rows.take (cap + 1)).map f) cap).2.2 = true) : rows.take (cap + 1) = rows ∧
      (countAndTop ((rows.take (cap + 1)).map f) cap).1 = rows.length := by
  unfold countAndTop at h ⊢
  simp only [List.length_map, List.length_take, decide_eq_true_eq] at h ⊢
  have hlen : rows.length ≤ cap := by omega
  exact ⟨List.take_of_length_le (by omega), by omega⟩

theorem mem_iff_of_subset {xs ys : List α} (hnd : xs.Nodup) (hsub : xs ⊆ ys) (hlen : ys.length = xs.length)
    (e : α) : e ∈ xs ↔ e ∈ ys :=
  ((List.subperm_of_subset hnd hsub).perm_of_length_le (by omega)).mem_iff

theorem toPairs_nodup {κ ρ : Type} [DecidableEq κ] (t : Table κ ρ) : t.toPairs.Nodup :=
  t.toPairs_keys.of_map

variable {a b : Store}

theorem sideRows_eq_of_mark {direction : String} {side : EdgeEnd} {cap : ℤ}
    (hside : EdgeEnd.ofDirection direction = .ok side) (ha : edgeMark a node direction cap = .ok (k, hi, true))
    (hb : edgeMark b node direction cap = .ok (k, hi, true)) (hn : NumberedEdges side node hi a b)
    (key : EdgeKey) (r : ERow) :
    (b.edge.lookup key = some r ∧ r.at side = node) ↔ (a.edge.lookup key = some r ∧ r.at side = node) := by
  have hmark : ∀ db : Store, edgeMark db node direction cap = .ok (k, hi, true) →
      (sideRows db side node).length = k ∧ ∀ e ∈ sideRows db side node, e.2.seq ≤ hi := by
    intro db h
    have hs : countAndTop (((sideRows db side node).take (cap.toNat + 1)).map fun e => e.2.seq) cap.toNat =
        (k, hi, true) := by
      unfold edgeMark at h
      rw [hside] at h
      exact Except.ok.inj h
    obtain ⟨htake, hlen⟩ := take_of_exhaustive (by rw [hs] : _ = true)
    refine ⟨hlen.symm.trans (by rw [hs]), fun e he => ?_⟩
    have hle := @le_countAndTop _ cap.toNat e.2.seq
      (List.mem_map_of_mem (f := fun e : EdgeKey × ERow => e.2.seq) (htake.symm ▸ he))
    rwa [hs] at hle
  have hmem : ∀ (db : Store), (key, r) ∈ sideRows db side node ↔
      db.edge.lookup key = some r ∧ r.at side = node := by
    intro db
    unfold sideRows
    rw [List.mem_filter, Table.mem_toPairs]
    simp
  obtain ⟨hla, -⟩ := hmark a ha
  obtain ⟨hlb, hle⟩ := hmark b hb
  rw [← hmem a, ← hmem b]
  refine mem_iff_of_subset ((toPairs_nodup _).filter _) ?_ (hla.trans hlb.symm) (key, r)
  rintro ⟨k', r'⟩ he
  have hk := List.mem_filter.mp he
  have hlook := Table.mem_toPairs.mp hk.1
  have hat : r'.at side = node := by simpa using hk.2
  rcases hn k' r' hlook hat with h | h
  · exact List.mem_filter.mpr ⟨Table.mem_toPairs.mpr h, hk.2⟩
  · exact absurd (hle _ he) (not_le.mpr h)

theorem typeRows_eq_of_mark {ct : String} {cap : ℤ} (ha : contentTypeMark a ct cap = (k, hi, true))
    (hb : contentTypeMark b ct cap = (k, hi, true))
    (hn : NumberedRows ct hi (fun id r => a.vertex.lookup id = some r) b) (id : String) (r : VRow) :
    (b.vertex.lookup id = some r ∧ r.ct.eqStr ct = true) ↔
      (a.vertex.lookup id = some r ∧ r.ct.eqStr ct = true) := by
  have hmark : ∀ db : Store, contentTypeMark db ct cap = (k, hi, true) →
      (typeRows db ct).length = k ∧ ∀ e ∈ typeRows db ct, e.2.seq ≤ hi := by
    intro db h
    have hperm := List.mergeSort_perm (typeRows db ct) fun a b => decide (a.1 ≤ b.1)
    unfold contentTypeMark at h
    obtain ⟨htake, hlen⟩ := take_of_exhaustive (by rw [h] : _ = true)
    refine ⟨?_, fun e he => ?_⟩
    · rw [h] at hlen
      exact hperm.length_eq.symm.trans hlen.symm
    · have hle := @le_countAndTop _ cap.toNat e.2.seq
        (List.mem_map_of_mem (f := fun e : String × VRow => e.2.seq) (htake.symm ▸ hperm.mem_iff.mpr he))
      rwa [h] at hle
  have hmem : ∀ (db : Store), (id, r) ∈ typeRows db ct ↔
      db.vertex.lookup id = some r ∧ r.ct.eqStr ct = true := by
    intro db
    unfold typeRows
    rw [List.mem_filter, Table.mem_toPairs]
  obtain ⟨hla, -⟩ := hmark a ha
  obtain ⟨hlb, hle⟩ := hmark b hb
  rw [← hmem a, ← hmem b]
  refine mem_iff_of_subset ((toPairs_nodup _).filter _) ?_ (hla.trans hlb.symm) (id, r)
  rintro ⟨id', r'⟩ he
  have hk := List.mem_filter.mp he
  rcases hn id' r' (Table.mem_toPairs.mp hk.1) hk.2 with h | h
  · exact List.mem_filter.mpr ⟨Table.mem_toPairs.mpr h, hk.2⟩
  · exact absurd (hle _ he) (not_le.mpr h)

/-- **The stamps are sound** between two moments of a run whose steps give what they write a number above
the stamp. -/
theorem freshness_stamps_sound (origin : Origin) (leaves : ℕ+) (before between : List Act) :
    (∀ node direction side cap k hi, EdgeEnd.ofDirection direction = .ok side →
      edgeMark ((Node.fresh origin leaves).run before).db node direction cap = .ok (k, hi, true) →
      edgeMark ((Node.fresh origin leaves).run (before ++ between)).db node direction cap =
        .ok (k, hi, true) →
      ((Node.fresh origin leaves).run before).RunMeetsAt (fun n a => a.NumbersEdges side node hi n)
        between →
      ∀ key r,
        (((Node.fresh origin leaves).run (before ++ between)).db.edge.lookup key = some r ∧
          r.at side = node) ↔
        (((Node.fresh origin leaves).run before).db.edge.lookup key = some r ∧ r.at side = node)) ∧
    (∀ ct cap k hi,
      contentTypeMark ((Node.fresh origin leaves).run before).db ct cap = (k, hi, true) →
      contentTypeMark ((Node.fresh origin leaves).run (before ++ between)).db ct cap = (k, hi, true) →
      ((Node.fresh origin leaves).run before).RunMeetsAt (fun n a => a.Numbers ct hi n) between →
      ∀ id r,
        (((Node.fresh origin leaves).run (before ++ between)).db.vertex.lookup id = some r ∧
          r.ct.eqStr ct = true) ↔
        (((Node.fresh origin leaves).run before).db.vertex.lookup id = some r ∧
          r.ct.eqStr ct = true)) := by
  have hi := (total_run before (Node.fresh origin leaves) totalInv_empty rfl).2
  rw [run_append]
  constructor
  · intro node direction side cap k top hside ha hb hmeets key r
    refine sideRows_eq_of_mark hside ha hb ?_ key r
    refine (bears_run numbersEdges_single between _ hmeets ⟨rfl, ?_⟩ hi).1.2
    exact fun _ _ hr _ => .inl hr
  · intro ct cap k top ha hb hmeets id r
    refine typeRows_eq_of_mark ha hb ?_ id r
    refine (bears_run numbers_single between _ hmeets ⟨rfl, ?_⟩ hi).1.2
    exact fun _ _ hr _ => .inl hr

def peerAhead : List Act :=
  [.addEdges [.tuple (.str "a") (.str "b") (.str "links") [("_origin", .str "peer"), ("_seq", .int 5)]]
     256 false,
   .addEdges [.tuple (.str "a") (.str "c") (.str "links") [("weight", .int 1)]] 256 true]

def hiddenRewrite : List Act :=
  [.addEdges [.tuple (.str "a") (.str "c") (.str "links") [("weight", .int 2)]] 256 true]

theorem hiddenRewrite_unstamped :
    ¬ ∀ (before between : List Act) (node : String) (cap : ℤ) (k : ℕ) (hi : ℤ),
      edgeMark ((Node.fresh ⟨"here", by decide⟩ 4096).run before).db node "out" cap = .ok (k, hi, true) →
      edgeMark ((Node.fresh ⟨"here", by decide⟩ 4096).run (before ++ between)).db node "out" cap =
        .ok (k, hi, true) →
      ∀ key r,
        (((Node.fresh ⟨"here", by decide⟩ 4096).run (before ++ between)).db.edge.lookup key = some r ∧
          r.at .source = node) ↔
        (((Node.fresh ⟨"here", by decide⟩ 4096).run before).db.edge.lookup key = some r ∧
          r.at .source = node) := by
  intro h
  obtain ⟨ha, hb, hfirst, hsecond⟩ :
      edgeMark ((Node.fresh ⟨"here", by decide⟩ 4096).run peerAhead).db "a" "out" 256 = .ok (2, 5, true) ∧
      edgeMark ((Node.fresh ⟨"here", by decide⟩ 4096).run (peerAhead ++ hiddenRewrite)).db "a" "out" 256 =
        .ok (2, 5, true) ∧
      (((Node.fresh ⟨"here", by decide⟩ 4096).run peerAhead).db.edge.lookup (edgeKey "a" "c" "links")).map ERow.seq =
        some 1 ∧
      (((Node.fresh ⟨"here", by decide⟩ 4096).run (peerAhead ++ hiddenRewrite)).db.edge.lookup
        (edgeKey "a" "c" "links")).map (fun r => (r.seq, r.at .source)) = some (2, "a") := by decide +kernel
  have hsame := h peerAhead hiddenRewrite "a" 256 2 5 ha hb (edgeKey "a" "c" "links")
  obtain ⟨r, hr, he⟩ := Option.map_eq_some_iff.mp hsecond
  obtain ⟨hseq, hat⟩ := Prod.mk.inj he
  rw [((hsame r).mp ⟨hr, hat⟩).1, Option.map_some, hseq] at hfirst
  cases hfirst

def stampedNote : List Act :=
  peerAhead ++ [.putArtifact [("id", .str "n"), ("content_type", .str "note")] true false]

theorem freshness_stamps_stampedNote :
    (∀ key r,
      (((Node.fresh ⟨"here", by decide⟩ 4096).run (stampedNote ++ [.deleteEdge "a" "d" "links"])).db.edge.lookup
          key = some r ∧ r.at .source = "a") ↔
        (((Node.fresh ⟨"here", by decide⟩ 4096).run stampedNote).db.edge.lookup key = some r ∧
          r.at .source = "a")) ∧
    ∀ id r,
      (((Node.fresh ⟨"here", by decide⟩ 4096).run
          (stampedNote ++ [.deleteEdge "a" "d" "links"])).db.vertex.lookup id = some r ∧
          r.ct.eqStr "note" = true) ↔
        (((Node.fresh ⟨"here", by decide⟩ 4096).run stampedNote).db.vertex.lookup id = some r ∧
          r.ct.eqStr "note" = true) := by
  obtain ⟨he, he', hct, hct'⟩ :
      edgeMark ((Node.fresh ⟨"here", by decide⟩ 4096).run stampedNote).db "a" "out" 256 = .ok (2, 5, true) ∧
      edgeMark ((Node.fresh ⟨"here", by decide⟩ 4096).run (stampedNote ++ [.deleteEdge "a" "d" "links"])).db "a" "out" 256 =
        .ok (2, 5, true) ∧
      contentTypeMark ((Node.fresh ⟨"here", by decide⟩ 4096).run stampedNote).db "note" 2000 = (1, 2, true) ∧
      contentTypeMark ((Node.fresh ⟨"here", by decide⟩ 4096).run (stampedNote ++ [.deleteEdge "a" "d" "links"])).db "note"
        2000 = (1, 2, true) := by decide +kernel
  have h := freshness_stamps_sound ⟨"here", by decide⟩ 4096 stampedNote [.deleteEdge "a" "d" "links"]
  refine ⟨h.1 "a" "out" .source 256 2 5 rfl he he' ?_, h.2 "note" 2000 1 2 hct hct' ?_⟩
  · exact ⟨(Act.meetsAt_single (P := fun n a => a.NumbersEdges .source "a" 5 n)
      (a := .deleteEdge "a" "d" "links") trivial _).mpr trivial, trivial⟩
  · exact ⟨(Act.meetsAt_single (P := fun n a => a.Numbers "note" 2 n)
      (a := .deleteEdge "a" "d" "links") trivial _).mpr trivial, trivial⟩

end Mantle
