import Mathlib.Tactic.Ring
import Mathlib.Tactic.LinearCombination
import Mantle.Db.Tasks

/-!
# Mantle.Db.Counters — the counters are the rows, counted (`verify_counters`)

`verifyCounters` recomputes every counter a row can be read off; `CounterInv` says it reports nothing.
-/

namespace Mantle

open Tx

variable {col : JsonCol} {d' : Doc} {k : ℕ} {key : EdgeKey} {name x : String} {κ ρ : Type}

variable {aid new old : String} {d fields : Doc} {r : VRow}

/-! ### The audit -/

/-- The counters that are not derived from the rows. -/
def unjudgedPrefixes : List String := ["task:", "conflict:", "vacated:", "listkey:", "edgelabel:"]

def isJudged (name : String) : Bool :=
  !unjudgedPrefixes.any fun p => p.toList.isPrefixOf name.toList

/-- `actual[name] = actual.get(name, 0) + delta`. -/
def addTo (acc : Table String ℤ) (name : String) (delta : ℤ) : Table String ℤ :=
  acc.insert name ((acc.lookup name).getD 0 + delta)

def addRows (acc : Table String ℤ) (origin : String) : Table String ℤ :=
  if origin = "" then acc else addTo acc (cRows origin) 1

def addVertex (acc : Table String ℤ) (r : VRow) : Table String ℤ :=
  (counterDeltas none (some r.doc.val) .none r.ct).foldl (fun acc e => addTo acc e.1 e.2)
    (addRows (addTo acc cVertexTotal 1) r.origin)

def addEdge (acc : Table String ℤ) (r : ERow) : Table String ℤ :=
  addTo (addTo (addRows acc r.origin) cEdgeTotal 1) (cEdgeLabel r.label) 1

def actualCounters (db : Store) : Table String ℤ :=
  db.edge.toPairs.foldl (fun acc e => addEdge acc e.2)
    (db.vertex.toPairs.foldl (fun acc e => addVertex acc e.2) ∅)

/-- `verify_counters()`: the names that drifted, with the stored and the actual value. -/
def verifyCounters (db : Store) : List (String × ℤ × ℤ) :=
  let actual := actualCounters db
  ((db.counter.keys ++ actual.keys).filter isJudged).filterMap fun name =>
    let a := (actual.lookup name).getD 0
    if db.counterOf name = a then none else some (name, db.counterOf name, a)

/-! ### The condition on a step -/

def CountedAlike (d : Doc) : Prop :=
  ∀ c, bindText (d.get "content_type") = .ok c → countedNames d.norm c = countedNames d (d.get "content_type")

/-- The documents count alike before and after they are stored, an edge is deleted under its own label, a cached row is
not evicted, and the fields of a settlement are not counted. -/
def Act.Counted (db : Store) : Act → Prop
  | .putArtifact doc stampRev newVersion => ∀ d ∈ putRows db doc stampRev newVersion, CountedAlike d
  | .putMany docs _ _ _ => ∀ d ∈ docs, CountedAlike d
  | .deleteEdge src dst label => ∀ r, db.edge.lookup (edgeKey src dst label) = some r → r.label = label
  | .evictArtifact id => db.vertex.lookup id = none
  | .settle id worker _ _ _ fields =>
    (∃ t, db.task.lookup id = some t ∧ t.status = "claimed" ∧ t.claimedBy.eqStr worker) →
    Json.KeysNodup fields ∧ ∀ r, db.vertex.lookup id = some r →
      countedNames (r.doc.val.update fields).norm r.ct = countedNames r.doc.val r.ct
  | _ => True

/-! ### What a row counts for -/

/-- One if the name is meant. -/
def hit (name x : String) : ℤ := if name = x then 1 else 0

def rowsHit (name origin : String) : ℤ := if origin = "" then 0 else hit name (cRows origin)

/-- How often a document is counted under a name. -/
def docHits (name : String) (d : Doc) (ct : Val) : ℤ := ((countedNames d ct).count name : ℤ)

def vertexHits (name : String) (_ : String) (r : VRow) : ℤ :=
  hit name cVertexTotal + rowsHit name r.origin + docHits name r.doc.val r.ct

def edgeHits (name : String) (_ : EdgeKey) (r : ERow) : ℤ :=
  rowsHit name r.origin + hit name cEdgeTotal + hit name (cEdgeLabel r.label)

/-- **The invariant**: every judged counter is the number of rows it stands for. -/
structure CounterInv (db : Store) : Prop where
  normal : ∀ id r, db.vertex.lookup id = some r → r.doc.val.norm = r.doc.val
  exact : ∀ name, isJudged name = true →
    db.counterOf name = db.vertex.sumBy (vertexHits name) + db.edge.sumBy (edgeHits name)

/-! ### Deltas -/

def deltaTotal (deltas : List (String × ℤ)) (name : String) : ℤ :=
  (deltas.map fun e => if name = e.1 then e.2 else 0).sum

theorem deltaTotal_addDelta (m : List (String × ℤ)) (x : String) (delta : ℤ) (name : String) :
    deltaTotal (addDelta m x delta) name = deltaTotal m name + if name = x then delta else 0 := by
  induction m with
  | nil => simp [addDelta, deltaTotal]
  | cons e m ih =>
    obtain ⟨k, v⟩ := e
    unfold addDelta
    unfold deltaTotal at ih ⊢
    by_cases hk : k = x
    · subst hk
      rw [if_pos rfl, List.map_cons, List.sum_cons, List.map_cons, List.sum_cons]
      by_cases hn : name = k
      · simp only [hn, if_true]
        ring
      · simp [hn]
    · rw [if_neg hk, List.map_cons, List.sum_cons, List.map_cons, List.sum_cons, ih]
      ring

theorem deltaTotal_foldl (delta : ℤ) (name : String) :
    ∀ (names : List String) (m : List (String × ℤ)),
      deltaTotal (names.foldl (fun acc x => addDelta acc x delta) m) name =
        deltaTotal m name + delta * (names.count name : ℤ)
  | [], m => by simp
  | x :: names, m => by
    rw [List.foldl_cons, deltaTotal_foldl delta name names, deltaTotal_addDelta, List.count_cons]
    by_cases h : x = name
    · subst h
      simp only [if_true, beq_self_eq_true]
      push_cast
      ring
    · have h' : ¬name = x := fun e => h e.symm
      simp [h, h']

theorem deltaTotal_filter (name : String) (m : List (String × ℤ)) :
    deltaTotal (m.filter fun e => e.2 ≠ 0) name = deltaTotal m name := by
  induction m with
  | nil => rfl
  | cons e m ih =>
    unfold deltaTotal at ih ⊢
    by_cases h : e.2 = 0
    · rw [List.filter_cons_of_neg (by simp [h]), ih, List.map_cons, List.sum_cons, h, ite_self, zero_add]
    · rw [List.filter_cons_of_pos (by simp [h]), List.map_cons, List.sum_cons, ih, List.map_cons,
        List.sum_cons]

theorem deltaTotal_counterDeltas (old new : Option Doc) (oldCt newCt : Val) (name : String) :
    deltaTotal (counterDeltas old new oldCt newCt) name =
      new.elim 0 (fun d => docHits name d newCt) - old.elim 0 (fun d => docHits name d oldCt) := by
  unfold counterDeltas
  rw [deltaTotal_filter, deltaTotal_foldl, deltaTotal_foldl]
  have h0 : deltaTotal [] name = 0 := rfl
  cases old with
  | none =>
    cases new with
    | none => simp [h0]
    | some d => simp [h0, docHits]
  | some d =>
    cases new with
    | none => simp [h0, docHits]
    | some d' =>
      simp only [h0, docHits, Option.elim_some]
      ring

theorem counterOf_bumps (name : String) : ∀ (deltas : List (String × ℤ)) (db : Store),
    (db.bumps deltas).counterOf name = db.counterOf name + deltaTotal deltas name
  | [], db => by simp [Store.bumps, deltaTotal]
  | e :: deltas, db => by
    have h : db.bumps (e :: deltas) = (db.bump e.1 e.2).bumps deltas := rfl
    rw [h, counterOf_bumps name deltas, Store.counterOf_bump]
    simp only [deltaTotal, List.map_cons, List.sum_cons]
    ring

/-! ### The audit reads the invariant -/

theorem getD_addTo (acc : Table String ℤ) (x : String) (delta : ℤ) (name : String) :
    ((addTo acc x delta).lookup name).getD 0 =
      (acc.lookup name).getD 0 + if name = x then delta else 0 := by
  unfold addTo
  rw [Table.lookup_insert_of]
  split_ifs with h
  · rw [h]
    rfl
  · simp

theorem getD_foldl_addTo (name : String) : ∀ (deltas : List (String × ℤ)) (acc : Table String ℤ),
    ((deltas.foldl (fun acc e => addTo acc e.1 e.2) acc).lookup name).getD 0 =
      (acc.lookup name).getD 0 + deltaTotal deltas name
  | [], acc => by simp [deltaTotal]
  | e :: deltas, acc => by
    rw [List.foldl_cons, getD_foldl_addTo name deltas, getD_addTo]
    simp only [deltaTotal, List.map_cons, List.sum_cons]
    ring

theorem getD_addRows (acc : Table String ℤ) (origin name : String) :
    ((addRows acc origin).lookup name).getD 0 = (acc.lookup name).getD 0 + rowsHit name origin := by
  unfold addRows rowsHit hit
  split_ifs with ho hn
  · simp
  · rw [getD_addTo, if_pos hn]
  · rw [getD_addTo, if_neg hn]

theorem getD_addVertex (acc : Table String ℤ) (id : String) (r : VRow) (name : String) :
    ((addVertex acc r).lookup name).getD 0 = (acc.lookup name).getD 0 + vertexHits name id r := by
  unfold addVertex vertexHits
  rw [getD_foldl_addTo, getD_addRows, getD_addTo, deltaTotal_counterDeltas]
  simp only [Option.elim_some, Option.elim_none, hit]
  ring

theorem getD_addEdge (acc : Table String ℤ) (key : EdgeKey) (r : ERow) (name : String) :
    ((addEdge acc r).lookup name).getD 0 = (acc.lookup name).getD 0 + edgeHits name key r := by
  unfold addEdge edgeHits
  rw [getD_addTo, getD_addTo, getD_addRows]
  simp only [hit]
  ring

theorem getD_foldl_rows [DecidableEq κ] {add : Table String ℤ → ρ → Table String ℤ} {w : κ → ρ → ℤ}
    (h : ∀ acc k r, ((add acc r).lookup name).getD 0 = (acc.lookup name).getD 0 + w k r) (t : Table κ ρ)
    (acc : Table String ℤ) :
    ((t.toPairs.foldl (fun acc e => add acc e.2) acc).lookup name).getD 0 =
      (acc.lookup name).getD 0 + t.sumBy w := by
  unfold Table.toPairs Table.sumBy
  induction t.entries generalizing acc with
  | nil => simp
  | cons e es ih =>
    rw [List.map_cons, List.foldl_cons, ih, h acc e.1 e.2, List.map_cons, List.sum_cons, add_assoc]

theorem actualCounters_getD (db : Store) (name : String) :
    ((actualCounters db).lookup name).getD 0 =
      db.vertex.sumBy (vertexHits name) + db.edge.sumBy (edgeHits name) := by
  unfold actualCounters
  rw [getD_foldl_rows (fun acc k r => getD_addEdge acc k r name),
    getD_foldl_rows (fun acc k r => getD_addVertex acc k r name)]
  simp

theorem CounterInv.verified {db : Store} (h : CounterInv db) : verifyCounters db = [] := by
  unfold verifyCounters
  dsimp only
  rw [List.filterMap_eq_nil_iff]
  intro name hname
  have hj := (List.mem_filter.mp hname).2
  rw [actualCounters_getD, ← h.exact name hj, if_pos rfl]

/-! ### Names that are not judged -/

theorem judged_ne (hn : isJudged name = true) (hx : isJudged x = false) : name ≠ x := by
  rintro rfl
  rw [hx] at hn
  cases hn

theorem unjudged_taskStatus (ct status : String) : isJudged (cTaskStatus ct status) = false := by
  simp [isJudged, unjudgedPrefixes, cTaskStatus, List.isPrefixOf]

theorem unjudged_vacated (o : String) : isJudged (cVacated o) = false := by
  simp [isJudged, unjudgedPrefixes, cVacated, List.isPrefixOf]

section Judged

variable {name : String} (hn : isJudged name = true)
include hn

theorem counterOf_bump_unjudged (hx : isJudged x = false) (db : Store) (delta : ℤ) :
    (db.bump x delta).counterOf name = db.counterOf name := by
  rw [Store.counterOf_bump, if_neg (judged_ne hn hx), add_zero]

theorem counterOf_vacate_judged (db : Store) (o : String) :
    (db.vacate o).counterOf name = db.counterOf name - rowsHit name o := by
  unfold Store.vacate rowsHit
  by_cases ho : o = ""
  · simp [ho, Store.counterOf]
  · simp only [ho, if_false]
    have h1 := counterOf_bump_unjudged hn (unjudged_vacated o) (db.bump (cRows o) (-1)) 1
    have h2 := Store.counterOf_bump db (cRows o) (-1) name
    refine Eq.trans ?_ ((h1.trans h2).trans ?_)
    · rfl
    · unfold hit
      split_ifs <;> ring

theorem counterOf_acceptVertex (db : Store) (aid : String) (row : VRow) (seq : Val) :
    (db.acceptVertex aid row seq).counterOf name = db.counterOf name
      - (db.vertex.lookup aid).elim 0 (fun p => rowsHit name p.origin) + hit name (cRows row.origin) := by
  unfold Store.acceptVertex
  cases db.vertex.lookup aid with
  | none =>
    rw [Store.counterOf_bump]
    simp [hit]
  | some p =>
    simp only [Option.elim_some]
    rw [Store.counterOf_bump, counterOf_vacate_judged hn]
    simp [hit]

theorem counterOf_uncounted (db : Store) (old : Option Doc) :
    (db.uncounted old).counterOf name = db.counterOf name := by
  unfold Store.uncounted
  split
  · exact counterOf_bump_unjudged hn (unjudged_taskStatus _ _) db (-1)
  · rfl

theorem counterOf_tasked (db : Store) (aid : String) (t : Option TaskRow) :
    (db.tasked aid t).counterOf name = db.counterOf name := by
  cases t with
  | none => rfl
  | some t => exact counterOf_bump_unjudged hn (unjudged_taskStatus _ _) db 1

omit hn in
theorem counterOf_recounted (db : Store) (old : Option Doc) (new : Doc) (oldCt newCt : Val) :
    (db.recounted old new oldCt newCt).counterOf name = db.counterOf name
      + (if old.isNone then hit name cVertexTotal else 0)
      + (docHits name new newCt - old.elim 0 fun d => docHits name d oldCt) := by
  unfold Store.recounted
  rw [counterOf_bumps, deltaTotal_counterDeltas, Option.elim_some]
  congr 1
  split_ifs
  · rw [Store.counterOf_bump]
    rfl
  · rw [add_zero]

end Judged

/-! ### One write -/

variable {db db' : Store}

theorem CounterInv.of_frame (h : CounterInv db) (hv : db'.vertex = db.vertex) (he : db'.edge = db.edge)
    (hc : ∀ name, isJudged name = true → db'.counterOf name = db.counterOf name) : CounterInv db' where
  normal := by
    rw [hv]
    exact h.normal
  exact := by
    intro name hn
    rw [hc name hn, hv, he]
    exact h.exact name hn

theorem countedNames_congr {d d' : Doc} (ct : Val) (h1 : d'.get "state" = d.get "state")
    (h2 : d'.get "collection_id" = d.get "collection_id")
    (h3 : (d'.get "cited_from").truthy = (d.get "cited_from").truthy)
    (h4 : (d'.get "provenance").truthy = (d.get "provenance").truthy) :
    countedNames d' ct = countedNames d ct := by
  unfold countedNames nullAuditFields isMissing
  simp only [h1, h2, List.flatMap_cons, List.flatMap_nil, h3, h4]

theorem Table.weightAt_elim [DecidableEq κ] (w : κ → ρ → ℤ) (t : Table κ ρ) (k : κ) :
    t.weightAt w k = (t.lookup k).elim 0 (w k) := by
  unfold Table.weightAt
  cases t.lookup k <;> rfl

theorem CounterInv.rowStored (h : CounterInv db) {row : VRow} {seq : Val} {t : Option TaskRow}
    (hdoc : row.doc.val = d.norm) (ho : row.origin ≠ "")
    (hcount : countedNames d.norm row.ct = countedNames d (d.get "content_type")) :
    CounterInv (db.rowStored aid d row seq t) := by
  obtain ⟨hv, he, -⟩ := Store.rowStored_rows db aid d row seq t
  obtain ⟨huo, -, -, hud⟩ := upsertVertex_fields (db.vertex.lookup aid) row
  have hct : (upsertVertex (db.vertex.lookup aid) row).ct = row.ct := by
    cases db.vertex.lookup aid <;> rfl
  refine ⟨?_, ?_⟩
  · intro id r hr
    rw [hv, Table.lookup_insert_of] at hr
    split_ifs at hr
    · cases hr
      rw [hud, hdoc, Doc.norm_norm]
    · exact h.normal id r hr
  · intro name hn
    rw [hv, he, Table.sumBy_insert, Table.weightAt_elim]
    unfold Store.rowStored
    rw [counterOf_tasked hn, counterOf_uncounted hn, counterOf_recounted, counterOf_acceptVertex hn,
      h.exact name hn]
    have hnew : vertexHits name aid (upsertVertex (db.vertex.lookup aid) row) =
        hit name cVertexTotal + hit name (cRows row.origin) + docHits name d (d.get "content_type") := by
      unfold vertexHits rowsHit docHits
      rw [huo, hud, hct, hdoc, hcount, if_neg ho]
    rw [hnew, huo]
    cases db.vertex.lookup aid with
    | none =>
      simp only [Option.map_none, Option.isNone_none, if_true, Option.elim_none]
      ring
    | some p =>
      simp only [Option.map_some, Option.isNone_some, Bool.false_eq_true, if_false, Option.elim_some,
        vertexHits]
      ring

theorem CounterInv.acceptEdge (h : CounterInv db) {e : EdgeSpec} {origin : String} {seq : ℤ} {leaf hash : ℕ}
    {row : ERow} (ho : origin ≠ "") (hrow : edgeRow e origin seq leaf = .ok row) :
    CounterInv (db.acceptEdge key e.label (upsertEdge (db.edge.lookup key) row) hash) := by
  obtain ⟨he, hv⟩ := Store.acceptEdge_tables db key e.label (upsertEdge (db.edge.lookup key) row) hash
  obtain ⟨hro, -, -⟩ := edgeRow_ok hrow
  have hlabel := (edgeRow_endpoints hrow).1
  refine ⟨by rw [hv]; exact h.normal, ?_⟩
  intro name hn
  rw [hv, he, Table.sumBy_insert, Table.weightAt_elim]
  unfold Store.acceptEdge
  cases hk : db.edge.lookup key with
  | none =>
    simp only [Option.elim_none, upsertEdge]
    rw [Store.counterOf_bump, Store.counterOf_bump, Store.counterOf_bump]
    have hsame : ((db.putEdge key row).xorLeaf row.leaf hash).counterOf name = db.counterOf name := rfl
    rw [hsame, h.exact name hn]
    unfold edgeHits rowsHit hit
    rw [hro, hlabel, if_neg ho]
    ring
  | some o =>
    simp only [Option.elim_some, upsertEdge]
    rw [Store.counterOf_bump, counterOf_vacate_judged hn, Store.counterOf_xorLeaf,
      Store.counterOf_xorLeaf, Store.counterOf_putEdge, h.exact name hn]
    unfold edgeHits rowsHit hit
    rw [hro, if_neg ho]
    ring

theorem CounterInv.retireEdge (h : CounterInv db) {r : ERow} (leaf : ℕ) (hr : db.edge.lookup key = some r) :
    CounterInv (db.retireEdge key r.label leaf r) := by
  refine ⟨h.normal, ?_⟩
  intro name hn
  have he : (db.retireEdge key r.label leaf r).edge = db.edge.erase key := rfl
  have hv : (db.retireEdge key r.label leaf r).vertex = db.vertex := rfl
  rw [he, hv, Table.sumBy_erase, Table.weightAt_some hr]
  unfold Store.retireEdge
  rw [counterOf_vacate_judged hn, Store.counterOf_bump, Store.counterOf_bump, Store.counterOf_xorLeaf]
  have hsame : ({ db with edge := db.edge.erase key } : Store).counterOf name = db.counterOf name := rfl
  rw [hsame, h.exact name hn]
  unfold edgeHits hit
  split_ifs <;> ring

theorem CounterInv.rowDeleted (h : CounterInv db) (hr : db.vertex.lookup aid = some r) :
    CounterInv (db.rowDeleted aid r true) := by
  obtain ⟨hv, he, -⟩ := Store.rowDeleted_rows db aid r true
  refine ⟨?_, ?_⟩
  · intro id r' hr'
    rw [hv, Table.lookup_erase_of] at hr'
    split_ifs at hr'
    exact h.normal id r' hr'
  · intro name hn
    rw [hv, he, Table.sumBy_erase, Table.weightAt_some hr]
    unfold Store.rowDeleted Store.settleVertex
    rw [counterOf_tasked hn, counterOf_uncounted hn, counterOf_bumps, deltaTotal_counterDeltas,
      counterOf_vacate_judged hn, Store.counterOf_bump, Store.counterOf_xorLeaf]
    have hsame : (db.eraseVertex aid).counterOf name = db.counterOf name := rfl
    rw [hsame, h.exact name hn]
    unfold vertexHits hit
    simp only [Option.elim_some, Option.elim_none]
    split_ifs <;> ring

theorem Store.sums_patch {aid : String} {r : VRow} (hr : db.vertex.lookup aid = some r) (col : JsonCol)
    (name : String) : (db.patchVertex aid r col).vertex.sumBy (vertexHits name) = db.vertex.sumBy (vertexHits name) -
        vertexHits name aid r + vertexHits name aid { r with doc := col } ∧
      (db.patchVertex aid r col).counterOf name = db.counterOf name ∧ (db.patchVertex aid r col).edge = db.edge := by
  refine ⟨?_, rfl, rfl⟩
  rw [← Table.weightAt_some (w := vertexHits name) hr]
  exact Table.sumBy_insert

theorem CounterInv.patchVertex (h : CounterInv db) {aid : String} {r : VRow} {col : JsonCol}
    (hr : db.vertex.lookup aid = some r) (hnorm : col.val.norm = col.val)
    (hcount : countedNames col.val r.ct = countedNames r.doc.val r.ct) :
    CounterInv (db.patchVertex aid r col) := by
  refine ⟨?_, ?_⟩
  · exact Store.normal_patch h.normal hnorm
  · intro name hn
    obtain ⟨hv, hc, he⟩ := Store.sums_patch hr col name
    rw [hv, hc, he, h.exact name hn]
    unfold vertexHits docHits
    rw [hcount]
    ring

/-! ### The write path -/

def countedKeys : List String := ["state", "collection_id", "cited_from", "provenance", "content_type"]

theorem CountedAlike.congr (h : CountedAlike d) (hget : ∀ k ∈ countedKeys, d'.get k = d.get k) :
    CountedAlike d' := by
  intro c hc
  rw [hget "content_type" (by decide)] at hc ⊢
  have h1 := hget "state" (by decide)
  have h2 := hget "collection_id" (by decide)
  have h3 := hget "cited_from" (by decide)
  have h4 := hget "provenance" (by decide)
  rw [@countedNames_congr d.norm d'.norm c (by rw [Doc.get_norm, Doc.get_norm, h1])
      (by rw [Doc.get_norm, Doc.get_norm, h2]) (by rw [Doc.get_norm, Doc.get_norm, h3])
      (by rw [Doc.get_norm, Doc.get_norm, h4]),
    @countedNames_congr d d' _ h1 h2 (by rw [h3]) (by rw [h4])]
  exact h c hc

theorem counter_rowRules : RowRules CounterInv CountedAlike where
  seq := fun db t h => h.of_frame rfl rfl fun _ _ => rfl
  conflict := fun db h =>
    ⟨h.of_frame rfl rfl fun _ hn => counterOf_bump_unjudged hn (by decide) db 1,
      h.of_frame rfl rfl fun _ hn => counterOf_bump_unjudged hn (by decide) db 1⟩
  accept := fun db key e origin seq leaf row hash ho hrow h => h.acceptEdge ho.2 hrow
  retire := fun db key leaf r hr h => h.retireEdge leaf hr
  row := by
    intro db aid doc origin seq s leaf row t hok ho _ _ hrow _ hdb
    have hstamped : CountedAlike (stampedDoc doc origin seq (db.vertex.lookup aid)) := by
      refine hok.congr ?_
      intro k hk
      refine stampedDoc_get ?_
      revert k
      decide
    obtain ⟨hro, -, -, hdoc⟩ := vertexRow_ok hrow
    exact hdb.rowStored hdoc (hro.symm ▸ ho.1) (hstamped row.ct (vertexRow_ct hrow))
  reparent := by
    intro doc v h
    refine h.congr ?_
    intro k hk
    refine Doc.get_set_of_ne _ _ ?_
    revert k
    decide

theorem CounterInv.moved (h : CounterInv db) {id : String} {t t' : TaskRow}
    (hm : TaskMoved id t t' fields db db')
    (hcount : ∀ r, db.vertex.lookup id = some r →
      countedNames (r.doc.val.update fields).norm r.ct = countedNames r.doc.val r.ct) :
    CounterInv db' := by
  have hc : ∀ name, isJudged name = true → db'.counterOf name = db.counterOf name := by
    intro name hn
    rw [hm.counter, if_neg (judged_ne hn (unjudged_taskStatus _ _)),
      if_neg (judged_ne hn (unjudged_taskStatus _ _)), sub_zero, add_zero]
  rcases hm.vertex with ⟨-, hv⟩ | ⟨r, col, hr, hcol, hv⟩
  · exact h.of_frame hv hm.edge hc
  · have hval := Doc.toCol_ok hcol
    have hp := @CounterInv.patchVertex _ h _ _ col hr (by rw [hval, Doc.norm_norm]) (by rw [hval, hcount r hr])
    exact hp.of_frame hv hm.edge hc

theorem countedNames_patched (hn : d.norm = d) (hf : Json.KeysNodup fields)
    (hkeys : ∀ k ∈ countedKeys, fields.find? k = none) (ct : Val) :
    countedNames (d.update fields).norm ct = countedNames d ct := by
  have hget : ∀ k ∈ countedKeys, (d.update fields).norm.get k = d.get k := by
    intro k hk
    rw [get_patched hn hf, hkeys k hk]
    rfl
  exact countedNames_congr ct (hget _ (by decide)) (hget _ (by decide)) (by rw [hget _ (by decide)])
    (by rw [hget _ (by decide)])

theorem countedNames_settled {extra : Doc} (hn : d.norm = d) (hf : Json.KeysNodup fields)
    (ho : Json.KeysNodup extra) (hkeys : ∀ k ∈ countedKeys, extra.find? k = none) (ct : Val) :
    countedNames (d.update (fields.update extra)).norm ct = countedNames (d.update fields).norm ct := by
  have hget : ∀ k ∈ countedKeys,
      (d.update (fields.update extra)).norm.get k = (d.update fields).norm.get k := by
    intro k hk
    rw [get_patched hn (Doc.keysNodup_update hf extra), get_patched hn hf, Doc.find?_update ho, hkeys k hk]
    rfl
  exact countedNames_congr ct (hget _ (by decide)) (hget _ (by decide)) (by rw [hget _ (by decide)])
    (by rw [hget _ (by decide)])

/-! ### Relabelling -/

theorem CounterInv.recounted (h : CounterInv db) (hr : db.vertex.lookup aid = some r)
    (hnorm : col.val.norm = col.val) :
    CounterInv ((db.patchVertex aid r col).bumps
      (counterDeltas (some r.doc.val) (some col.val) r.ct r.ct)) := by
  have hrows := Store.bumps_sameRows (counterDeltas (some r.doc.val) (some col.val) r.ct r.ct)
    (db.patchVertex aid r col)
  refine ⟨?_, ?_⟩
  · rw [hrows.vertex]
    exact Store.normal_patch h.normal hnorm
  · intro name hn
    rw [hrows.vertex, hrows.edge, counterOf_bumps, deltaTotal_counterDeltas]
    obtain ⟨hv, hc, he⟩ := Store.sums_patch hr col name
    rw [hv, hc, he, h.exact name hn]
    simp only [vertexHits, Option.elim_some]
    ring

/-- The rows are `k` relabels ahead of the counters. -/
structure Ahead (old new : String) (k : ℕ) (db : Store) : Prop where
  normal : ∀ id r, db.vertex.lookup id = some r → r.doc.val.norm = r.doc.val
  exact : ∀ name, isJudged name = true →
    db.counterOf name + k * (hit name (cState new) - hit name (cState old)) =
      db.vertex.sumBy (vertexHits name) + db.edge.sumBy (edgeHits name)

theorem docHits_state {s : String} (name : String) (ct : Val) (hs : d.get "state" = .str s)
    (hne : s = stateLive ∨ s = "committed") (s' : String) (hne' : s' = stateLive ∨ s' = "committed") :
    docHits name (d.set "state" (.str s')) ct =
      docHits name d ct + (hit name (cState s') - hit name (cState s)) := by
  have hget : ∀ k, k ≠ "state" → (d.set "state" (.str s')).get k = d.get k :=
    fun k hk => Doc.get_set_of_ne _ _ hk
  have hlive : ∀ x : String, x = stateLive ∨ x = "committed" →
      ((Val.str x).eqStr stateLive || (Val.str x).eqStr "committed") = true := by
    rintro x (rfl | rfl) <;> decide
  have htruthy : ∀ x : String, x = stateLive ∨ x = "committed" → (Val.str x).truthy = true := by
    rintro x (rfl | rfl) <;> decide
  unfold docHits countedNames
  simp only [Doc.get_set_self, hs, hlive s hne, hlive s' hne', htruthy s hne, htruthy s' hne',
    hget "collection_id" (by decide), nullAuditFields, List.flatMap_cons, List.flatMap_nil,
    hget "cited_from" (by decide), hget "provenance" (by decide), List.count_append, if_true,
    List.count_cons, List.count_nil, Val.pyStr_str, hit]
  have hswap : ∀ x y : String, (x == y) = true ↔ y = x := fun x y => by
    rw [beq_iff_eq]
    exact eq_comm
  simp only [hswap]
  push_cast
  ring

theorem Ahead.relabel (h : Ahead old new k db) (hr : db.vertex.lookup aid = some r)
    (hold : old = stateLive ∨ old = "committed") (hnew : new = stateLive ∨ new = "committed")
    (hst : (r.doc.val.get "state").eqStr old = true) :
    Ahead old new (k + 1) (db.patchVertex aid r (jsonSet r.doc "state" (.str new))) := by
  refine ⟨?_, ?_⟩
  · refine Store.normal_patch h.normal ?_
    rw [jsonSet_val, Doc.norm_set, h.normal aid r hr]
    rfl
  · intro name hn
    obtain ⟨hv, hc, he⟩ := Store.sums_patch hr (jsonSet r.doc "state" (.str new)) name
    rw [hv, hc, he]
    have hexact := h.exact name hn
    simp only [vertexHits, jsonSet_val,
      docHits_state name r.ct (eqStr_iff.mp hst) hold new hnew] at hexact ⊢
    push_cast
    linear_combination hexact

theorem relabelCommitted_ahead (hold : old = stateLive ∨ old = "committed")
    (hnew : new = stateLive ∨ new = "committed") :
    ∀ (chunk : List String) (k : ℕ) (n : Node), Ahead old new k n.db →
      Runs (chunk.foldlM (fun k aid => do
        let j ← relabelCommitted new aid old
        pure (k + j)) k : DbM ℕ) n
        (fun k' n' => Ahead old new k' n'.db ∧ n'.inTxn = n.inTxn) fun n' => n'.inTxn = n.inTxn
  | [], k, n, h => runs_pure ⟨h, rfl⟩
  | aid :: chunk, k, n, h => by
    rw [List.foldlM_cons]
    have hone : Runs (relabelCommitted new aid old) n
        (fun j n' => Ahead old new (k + j) n'.db ∧ n'.inTxn = n.inTxn) fun n' => n'.inTxn = n.inTxn := by
      unfold relabelCommitted
      refine runs_read ?_
      cases hr : n.db.vertex.lookup aid with
      | none => exact runs_pure ⟨h, rfl⟩
      | some r =>
        refine runs_ite (fun hst => ?_) fun _ => runs_pure ⟨h, rfl⟩
        exact runs_bind (runs_modify (runs_pure ⟨h.relabel hr hold hnew hst, rfl⟩))
    refine runs_bind (runs_bind (hone.mono ?_ fun _ ht => ht))
    rintro j n' ⟨h', ht⟩
    refine runs_pure ((relabelCommitted_ahead hold hnew chunk (k + j) n' h').mono ?_ ?_)
    · rintro k' n'' ⟨h'', ht'⟩
      exact ⟨h'', ht'.trans ht⟩
    · intro n'' ht'
      exact ht'.trans ht

theorem Ahead.caughtUp (h : Ahead old new k db) :
    CounterInv ((db.bump (cState old) (-(k : ℤ))).bump (cState new) k) := by
  refine ⟨h.normal, ?_⟩
  intro name hn
  rw [Store.counterOf_bump, Store.counterOf_bump]
  have hexact := h.exact name hn
  unfold hit at hexact
  refine Eq.trans ?_ hexact
  split_ifs <;> ring

theorem counter_relabelChunk (hold : old ∈ legacyLiveStates) (hnew : new = stateLive) (chunk : List String)
    {n : Node} (hi : n.inTxn = true) :
    Keeps CounterInv (relabelChunk old new chunk) n := by
  refine keeps_ite ?_ fun _ => ?_
  · rintro ⟨rfl, rfl⟩
    refine keeps_inside hi fun hn => runs_bind ?_
    have h₀ : Ahead "committed" stateLive 0 n.db := ⟨hn.normal, fun name hj => by
      rw [← hn.exact name hj]
      simp⟩
    refine (relabelCommitted_ahead (.inr rfl) (.inl rfl) chunk 0 n h₀).mono ?_ fun _ ht => ht
    rintro k n' ⟨h, ht⟩
    exact runs_bind (runs_modify (runs_pure ⟨h.caughtUp, ht⟩))
  · refine keeps_foldlM fun aid _ k m hm hmi => ?_
    refine keeps_bind (keeps_read ?_) fun _ m' _ _ => keeps_pure _ m'
    cases hr : m.db.vertex.lookup aid with
    | none => exact keeps_pure _ m
    | some r =>
      refine keeps_ite (fun _ => keeps_ofExcept fun col hcol => ?_) fun _ => keeps_pure _ m
      have hval : col.val = r.doc.val.set "state" (.str new) := by
        rw [Doc.toCol_ok hcol, Doc.norm_set, hm.normal aid r hr]
        rfl
      refine keeps_inside (hmi.trans hi) fun hn => runs_bind (runs_modify (runs_bind (runs_modify
        (runs_pure ⟨?_, rfl⟩))))
      rw [← hval]
      exact hn.recounted hr (by rw [Doc.toCol_ok hcol, Doc.norm_norm])

/-! ### Calls -/

theorem counter_exec (a : Act) (n : Node) (ha : a.Single) (h : a.Counted n.db) :
    Keeps CounterInv (exec a) n := by
  have hrules := counter_rowRules
  refine hrules.toEdgeRules.exec ha ?_ ?_ ?_ ?_ fun hp => ?_
  · rintro doc stampRev newVersion rfl
    exact keeps_putArtifact hrules h
  · rintro docs batch stampRev onUnordered rfl
    exact keeps_putMany hrules batch onUnordered h
  · rintro src dst label leaf r rfl hr hn
    have hlabel := h r hr
    rw [← hlabel] at hr ⊢
    exact hn.retireEdge leaf hr
  · intro db id b r hd hv hr hn
    cases a with
    | deleteArtifact x =>
      obtain ⟨rfl, rfl⟩ := hd
      exact hn.rowDeleted hr
    | evictArtifact x =>
      obtain ⟨rfl, -⟩ := hd
      rw [hv, h] at hr
      cases hr
    | _ => exact hd.elim
  cases a with
  | relabelState old new batch limit exclude =>
    exact keeps_discard (keeps_relabelState hrules.seq
      (fun hold hnew chunk _ hi => counter_relabelChunk hold hnew chunk hi) batch limit exclude n)
  | tryClaim id worker now =>
    refine keeps_discard ((tryClaim_transits id worker now n).keeps ?_)
    intro t db' _ _ hm hn
    exact hn.moved hm fun r hr => countedNames_patched (hn.normal id r hr) (by simp [Json.KeysNodup])
      (by simp [countedKeys, Doc.find?]) r.ct
  | renewLease id now =>
    refine keeps_discard ((renewLease_transits id now n).keeps ?_)
    intro t db' _ _ hm hn
    exact hn.moved hm fun r hr => countedNames_patched (hn.normal id r hr) (by simp [Json.KeysNodup])
      (by simp [countedKeys, Doc.find?]) r.ct
  | release id toStatus next =>
    refine keeps_discard ((release_transits id toStatus next n).keeps ?_)
    intro t db' _ _ hm hn
    exact hn.moved hm fun r hr => countedNames_patched (hn.normal id r hr) (by simp [Json.KeysNodup])
      (by simp [countedKeys, Doc.find?]) r.ct
  | settle id worker toStatus next done fields =>
    refine keeps_discard ((settle_transits id worker toStatus next done fields n).keeps ?_)
    intro t db' ht hg hm hn
    obtain ⟨hf, hcount⟩ := h ⟨t, ht, hg⟩
    refine hn.moved hm fun r hr => ?_
    rw [countedNames_settled (hn.normal id r hr) hf (by simp [Json.KeysNodup])
      (by simp [countedKeys, Doc.find?])]
    exact hcount r hr
  | _ => exact hp.elim

theorem counterInv_fresh : CounterInv Store.empty where
  normal := fun id r h => by cases h
  exact := by
    intro name hn
    have h1 : name ≠ cListIndexBuilt := judged_ne hn (by decide)
    have h2 : name ≠ cEdgeLabelBuilt := judged_ne hn (by decide)
    unfold Store.counterOf Store.empty
    rw [Table.lookup_insert_of, if_neg h2, Table.lookup_insert_of, if_neg h1]
    rfl

end Mantle
