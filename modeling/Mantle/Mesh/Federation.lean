import Mantle.Base.Paging
import Mantle.Db.Versions
import Mantle.Mesh.Apply

/-!
# Mantle.Mesh.Federation — pulling a peer's rows page by page (`mesh/federation.py`)

A peer serves its rows by keyset, and `pull_from_peers` keeps two cursors for it: the id it came to, and the offset
that a peer without keyset pages reads.  Bodies are not here.
-/

namespace Mantle

open Tx Run

variable {i : ℕ} {id : String} {n : Node} {row : Option VRow}

/-! ### The peer's side -/

/-- The rows of a lattice store, under the ids of their documents. -/
def Peer : Type := {db : Store // DocsNamed db}

def pageById (db : Store) (after : String) (limit : ℕ) : List (String × VRow) :=
  (Paging.page db.vertex.sortedKeys (some after) limit).filterMap fun id => (db.vertex.lookup id).map (id, ·)

/-- What a page of `export_page` carries. -/
structure Page where
  artifacts : List Doc
  nextOffset : ℤ
  nextAfter : String
  scanned : ℕ
  exhausted : Bool

def shippedDoc (d : Doc) : Doc := d.without fun k => startsText k "@"

/-- The documents of a page that replicate. -/
def shippedDocs (docs : List Doc) : List Doc :=
  (docs.map shippedDoc).filter fun d => (d.get "id").truthy && isReplicated (d.get "content_type")

/-- The greatest id of a page, and of where it started. -/
def lastShipped (after : String) (docs : List Doc) : String :=
  (docs.map shippedDoc).foldl (fun last d =>
    if (d.get "id").truthy && decide (last < (d.get "id").pyStr) then (d.get "id").pyStr else last) after

def cursorDropped (offset : ℤ) (limit : ℕ) : PyErr :=
  .runtimeError ("op.mesh.export: this store pages by KEYSET but the request carried offset=" ++ toString offset
    ++ " with no `after` cursor, so the dispatcher dropped it. Add `after=args.get(\"after\",\"\")` "
    ++ "to the op.mesh.export handler in genesis.py. Refusing to serve page 1 as though it "
    ++ "were page " ++ toString (offset / max 1 limit) ++ ".")

/-- `export_page`, of a lattice store. -/
def exportPage (db : Store) (offset : ℤ) (after : String) (limit : ℕ) : Except PyErr Page :=
  if 0 < max 0 offset ∧ after = "" then .error (cursorDropped (max 0 offset) limit)
  else
    let docs := (pageById db after limit).map fun row => row.2.doc.val
    .ok
      { artifacts := shippedDocs docs
        nextOffset := max 0 offset + docs.length
        nextAfter := lastShipped after docs
        scanned := docs.length
        exhausted := decide (docs.length < limit) }

/-! ### Pulling -/

/-- One of the requests for a page: no answer comes, or the peer answers from its rows of that moment. -/
abbrev Tries := ℕ → Option Peer

def answer (limit : ℕ) (tries : Tries) (offset : ℤ) (after : String) : Option (Peer × Page) :=
  (List.range 3).findSome? fun i => (tries i).bind fun peer =>
    match exportPage peer.1 offset after limit with
    | .ok page => some (peer, page)
    | .error _ => none

structure SweepLog where
  asked : List (ℤ × String)
  answered : List Peer
  handed : List Doc

/-- One call, at the top of its loop. -/
structure Pull where
  node : Node
  /-- The cursor, as the call found it. -/
  cur : Doc
  offset : ℤ
  after : String
  pulled : ℕ
  exhausted : Bool
  /-- The loop was left. -/
  stopped : Bool
  /-- Three requests for a page failed. -/
  failed : Bool
  /-- `put_many` raised. -/
  raised : Bool
  log : SweepLog

/-- Where the next page starts. -/
def Pull.moved (p : Pull) (page : Page) : Pull :=
  let p := { p with offset := page.nextOffset }
  if page.nextAfter ≠ "" ∧ page.nextAfter = p.after then { p with after := "", exhausted := true, stopped := true }
  else
    let p := if page.nextAfter = "" then p else { p with after := page.nextAfter }
    if page.exhausted then { p with offset := 0, after := "", exhausted := true, stopped := true } else p

def storePage (docs : List Doc) : DbM ℕ := if docs.isEmpty then pure 0 else putMany docs 100 true .keepLocal

/-- A page that came. -/
def Pull.received (p : Pull) (peer : Peer) (page : Page) : Pull :=
  let docs := page.artifacts.filter fun d => (d.get "id").truthy
  let log := { p.log with answered := peer :: p.log.answered, handed := p.log.handed ++ docs }
  match storePage docs p.node with
  | .error _ n' => { p with node := n', raised := true, stopped := true, log := log }
  | .ok _ n' => { p with node := n', pulled := p.pulled + docs.length, log := log }.moved page

def Pull.turn (limit : ℕ) (tries : Tries) (p : Pull) : Pull :=
  if p.stopped then p
  else
    let p := { p with log := { p.log with asked := (p.offset, p.after) :: p.log.asked } }
    match answer limit tries p.offset p.after with
    | none => { p with stopped := true, failed := true }
    | some (peer, page) => p.received peer page

/-- The constants of the prism package a cursor cites. -/
structure Genesis where
  human : Val
  cited : Val

structure CursorAt where
  id : String
  base : String

def meshCursorCt : String := "application/vnd.agience.mesh-cursor+json"

/-- A call before its first request. -/
def Pull.opened (c : CursorAt) (log : SweepLog) (n : Node) (offset : ℤ) : Pull where
  node := n
  cur := artifactOr n.db c.id
  offset := offset
  after := (((artifactOr n.db c.id).get "page_after").orElse (.str "")).pyStr
  pulled := 0
  exhausted := false
  stopped := false
  failed := false
  raised := false
  log := log

def Pull.start (c : CursorAt) (log : SweepLog) (n : Node) : Except PyErr Pull :=
  (pyInt (((artifactOr n.db c.id).get "page_offset").orElse (.int 0))).map (Pull.opened c log n)

/-- `cur.get("pulled_total", 0) + pulled`. -/
def pulledTotal (cur : Doc) (pulled : ℕ) : Except PyErr Val :=
  match (cur.find? "pulled_total").getD (.int 0) with
  | .int n => .ok (.int (n + pulled))
  | .bool b => .ok (.int ((if b then 1 else 0) + pulled))
  | _ => .error (.typeError "unsupported operand type(s) for +")

def sweepCursor (g : Genesis) (c : CursorAt) (now : String) (total : Val) (p : Pull) : Doc :=
  [("id", .str c.id), ("content_type", .str meshCursorCt), ("state", .str "live"), ("peer", .str c.base),
   ("page_offset", .int p.offset), ("page_after", .str p.after), ("pulled_total", total),
   ("content", .str ("mesh pull cursor for " ++ c.base)), ("provenance", g.human), ("cited_from", g.cited),
   ("updated", .str now)]

/-- What a call for one peer asks and is answered. -/
structure Visit where
  maxPages : ℕ+
  page : ℕ+
  tries : ℕ → Tries
  now : String

/-- The loop of a call. -/
def Visit.pages (v : Visit) (p : Pull) : Pull :=
  (List.range v.maxPages).foldl (fun p i => p.turn v.page (v.tries i)) p

def storeCursor (g : Genesis) (c : CursorAt) (now : String) (p : Pull) : DbM PUnit := do
  let total ← Tx.ofExcept (pulledTotal p.cur p.pulled)
  putOp (sweepCursor g c now total p)

/-- What the sweep did so far, the sweeps that were reported as exhausted, and what each call reported, the last first.
-/
structure Sweeps where
  node : Node
  log : SweepLog
  completed : List SweepLog
  reports : List (Option Bool)

/-- A call that stored its cursor. -/
def Sweeps.reported (s : Sweeps) (n' : Node) (p : Pull) : Sweeps :=
  if p.exhausted then
    ⟨n', ⟨p.log.asked, [], []⟩, p.log :: s.completed, some true :: s.reports⟩
  else ⟨n', p.log, s.completed, some false :: s.reports⟩

/-- `pull_from_peers`, for one peer. -/
def Sweeps.visit (g : Genesis) (c : CursorAt) (s : Sweeps) (v : Visit) : Sweeps :=
  match Pull.start c s.log s.node with
  | .error _ => { s with reports := none :: s.reports }
  | .ok p =>
    let p := v.pages p
    if p.raised then ⟨p.node, p.log, s.completed, none :: s.reports⟩
    else
      match storeCursor g c v.now p p.node with
      | .ok _ n' => s.reported n' p
      | .error _ n' => ⟨n', p.log, s.completed, none :: s.reports⟩

/-- A call for the peer, or anything else the node does: calls for its other peers, writes of its own. -/
inductive SweepEvent
  | visit (v : Visit)
  | elsewhere (n' : Node)

def Sweeps.step (g : Genesis) (c : CursorAt) (s : Sweeps) : SweepEvent → Sweeps
  | .visit v => s.visit g c v
  | .elsewhere n' => { s with node := n' }

/-! ### A page -/

def HeldAt (db : Store) (id : String) : Prop :=
  ∃ r, db.vertex.lookup id = some r ∧ isReplicated (r.doc.val.get "content_type") = true

def pageIds (db : Store) (after : String) (limit : ℕ) : List String :=
  Paging.page db.vertex.sortedKeys (some after) limit

structure PageOf (db : Store) (after : String) (limit : ℕ) (offset : ℤ) (page : Page) : Prop where
  offset : page.nextOffset = max 0 offset + (pageIds db after limit).length
  last : page.nextAfter = (pageIds db after limit).getLast?.getD after
  short : page.exhausted = decide ((pageIds db after limit).length < limit)
  holds : ∀ id ∈ pageIds db after limit, HeldAt db id → ∃ d ∈ page.artifacts, d.get "id" = .str id
  held : ∀ d ∈ page.artifacts, ∃ id ≠ "", HeldAt db id ∧ d.get "id" = .str id

section Pages

variable {db : Store} {after : String} {limit : ℕ} {offset : ℤ} {page : Page}

theorem not_lt_empty (s : String) : ¬s < "" := by
  rw [String.lt_iff_toList_lt]
  exact List.not_lt_nil _

theorem sortedKeys_strict (db : Store) : db.vertex.sortedKeys.Pairwise (· < ·) := Table.sorted_keys db.vertex

theorem pageIds_after (h : id ∈ pageIds db after limit) :
    after < id ∧ (db.vertex.lookup id).isSome = true := by
  obtain ⟨hmem, hlt⟩ := Paging.mem_beyond_some.mp (List.mem_of_mem_take h)
  exact ⟨hlt, Table.mem_sortedKeys.mp hmem⟩

theorem pageIds_ne (h : id ∈ pageIds db after limit) : id ≠ "" := by
  rintro rfl
  exact not_lt_empty after (pageIds_after h).1

theorem mem_pageIds {last : String} (hlast : (pageIds db after limit).getLast? = some last)
    (hid : (db.vertex.lookup id).isSome = true) (hlo : after < id) (hhi : id ≤ last) : id ∈ pageIds db after limit := by
  have hbeyond : id ∈ Paging.beyond db.vertex.sortedKeys (some after) :=
    Paging.mem_beyond_some.mpr ⟨Table.mem_sortedKeys.mpr hid, hlo⟩
  rw [← Paging.page_append_beyond (sortedKeys_strict db) hlast, List.mem_append] at hbeyond
  refine hbeyond.resolve_right fun hmem => ?_
  exact absurd (Paging.mem_beyond_some.mp hmem).2 (not_lt_of_ge hhi)

theorem mem_pageIds_short (hshort : (pageIds db after limit).length < limit) (hid : (db.vertex.lookup id).isSome = true)
    (hlo : after < id) : id ∈ pageIds db after limit := by
  unfold pageIds at hshort ⊢
  rw [Paging.page_eq_of_short hshort]
  exact Paging.mem_beyond_some.mpr ⟨Table.mem_sortedKeys.mpr hid, hlo⟩

theorem mem_pageById {row : String × VRow} (h : row ∈ pageById db after limit) :
    row.1 ∈ pageIds db after limit ∧ db.vertex.lookup row.1 = some row.2 := by
  obtain ⟨id, hid, hrow⟩ := List.mem_filterMap.mp h
  obtain ⟨r, hr, rfl⟩ := Option.map_eq_some_iff.mp hrow
  exact ⟨hid, hr⟩

theorem pageById_ids : (pageById db after limit).map Prod.fst = pageIds db after limit := by
  have hall : ∀ ids : List String, (∀ id ∈ ids, (db.vertex.lookup id).isSome = true) →
      (ids.filterMap fun id => (db.vertex.lookup id).map (id, ·)).map Prod.fst = ids := by
    intro ids
    induction ids with
    | nil => exact fun _ => rfl
    | cons id ids ih =>
      intro h
      obtain ⟨r, hr⟩ := Option.isSome_iff_exists.mp (h id (List.mem_cons_self ..))
      rw [List.filterMap_cons, hr]
      dsimp only [Option.map_some]
      rw [List.map_cons, ih fun id' hid' => h id' (List.mem_cons_of_mem _ hid')]
  exact hall _ fun id hid => (pageIds_after hid).2

theorem shippedDoc_get (d : Doc) {k : String} (hk : startsText k "@" = false) : (shippedDoc d).get k = d.get k :=
  Doc.get_without d hk

theorem lastShipped_rows : ∀ (rows : List (String × VRow)) (after : String),
    (∀ row ∈ rows, row.2.doc.val.get "id" = .str row.1) → (after :: rows.map Prod.fst).Pairwise (· < ·) →
    lastShipped after (rows.map fun row => row.2.doc.val) = ((rows.map Prod.fst).getLast?).getD after
  | [], _, _, _ => rfl
  | row :: rows, after, hid, hsorted => by
    have hlt : after < row.1 := List.rel_of_pairwise_cons hsorted (List.mem_cons_self ..)
    have hrow : (shippedDoc row.2.doc.val).get "id" = .str row.1 := by
      rw [shippedDoc_get _ (by decide), hid row (List.mem_cons_self ..)]
    have hne : row.1 ≠ "" := fun h => not_lt_empty after (h ▸ hlt)
    have ih := lastShipped_rows rows row.1 (fun r hr => hid r (List.mem_cons_of_mem _ hr)) (List.Pairwise.of_cons hsorted)
    unfold lastShipped at ih ⊢
    rw [List.map_cons, List.map_cons, List.foldl_cons, hrow]
    simp only [Val.truthy_str, Val.pyStr_str, hne, hlt, decide_true, ne_eq, not_false_eq_true, Bool.and_self, if_true]
    rw [ih, List.map_cons, List.getLast?_cons]
    rfl

theorem exportPage_ok (peer : Peer) (hready : after = "" → offset ≤ 0) : ∃ page,
    exportPage peer.1 offset after limit = .ok page ∧ PageOf peer.1 after limit offset page := by
  have hlen : ((pageById peer.1 after limit).map fun row => row.2.doc.val).length = (pageIds peer.1 after limit).length := by
    rw [← pageById_ids, List.length_map, List.length_map]
  have hnamed : ∀ row ∈ pageById peer.1 after limit, row.2.doc.val.get "id" = .str row.1 :=
    fun row hrow => peer.2 row.1 row.2 (mem_pageById hrow).2
  have hsorted : (after :: (pageById peer.1 after limit).map Prod.fst).Pairwise (· < ·) := by
    rw [pageById_ids, List.pairwise_cons]
    refine ⟨fun id hid => (pageIds_after hid).1, (sortedKeys_strict peer.1).sublist ?_⟩
    exact (List.take_sublist ..).trans (Paging.beyond_sublist ..)
  unfold exportPage
  rw [if_neg fun h => by have := hready h.2; omega]
  refine ⟨_, rfl, by rw [hlen], ?_, by rw [hlen], fun id hid hheld => ?_, fun d hd => ?_⟩
  · rw [lastShipped_rows _ _ hnamed hsorted, pageById_ids]
  · obtain ⟨r, hr, hrep⟩ := hheld
    have hrow : (id, r) ∈ pageById peer.1 after limit :=
      List.mem_filterMap.mpr ⟨id, hid, by rw [hr]; rfl⟩
    have hdid : (shippedDoc r.doc.val).get "id" = .str id := by
      rw [shippedDoc_get _ (by decide), peer.2 id r hr]
    refine ⟨shippedDoc r.doc.val, List.mem_filter.mpr ⟨?_, ?_⟩, hdid⟩
    · exact List.mem_map_of_mem (List.mem_map_of_mem hrow)
    · rw [hdid, shippedDoc_get _ (by decide), hrep, Val.truthy_str]
      simpa using pageIds_ne hid
  · obtain ⟨hmem, hpass⟩ := List.mem_filter.mp hd
    obtain ⟨d', hd', rfl⟩ := List.mem_map.mp hmem
    obtain ⟨row, hrow, rfl⟩ := List.mem_map.mp hd'
    rw [Bool.and_eq_true, shippedDoc_get _ (by decide), shippedDoc_get _ (by decide)] at hpass
    obtain ⟨hid, hlookup⟩ := mem_pageById hrow
    exact ⟨row.1, pageIds_ne hid, ⟨row.2, hlookup, hpass.2⟩, by
      rw [shippedDoc_get _ (by decide), hnamed row hrow]⟩

theorem answer_some {tries : Tries} {peer : Peer} (hready : after = "" → offset ≤ 0)
    (h : answer limit tries offset after = some (peer, page)) :
    PageOf peer.1 after limit offset page ∧ ∃ i < 3, tries i = some peer := by
  unfold answer at h
  obtain ⟨i, hi, h⟩ := List.exists_of_findSome?_eq_some h
  obtain ⟨q, hq, h⟩ := Option.bind_eq_some_iff.mp h
  obtain ⟨page', hok, hof⟩ := exportPage_ok q hready
  rw [hok] at h
  cases h
  exact ⟨hof, i, List.mem_range.mp hi, hq⟩

theorem answer_isSome {tries : Tries} (hready : after = "" → offset ≤ 0) (hi : i < 3) (h : (tries i).isSome = true) :
    ∃ q, answer limit tries offset after = some q := by
  obtain ⟨peer, hpeer⟩ := Option.isSome_iff_exists.mp h
  obtain ⟨page, hok, -⟩ := exportPage_ok peer hready
  refine Option.isSome_iff_exists.mp ?_
  unfold answer
  rw [List.findSome?_isSome_iff]
  exact ⟨i, List.mem_range.mpr hi, by rw [hpeer]; dsimp only [Option.bind_some]; rw [hok]; rfl⟩

end Pages

/-! ### A turn -/

def RowStands (id : String) (row : Option VRow) (db : Store) : Prop := db.vertex.lookup id = row

theorem rowStands_rowRules (id : String) (row : Option VRow) :
    RowRules (RowStands id row) fun d => d.get "id" ≠ .str id where
  seq := fun _ _ h => h
  conflict := fun _ h => ⟨h, h⟩
  accept := fun db key e origin seq leaf r hash _ _ h => by
    unfold RowStands at h ⊢
    rwa [(Store.acceptEdge_tables _ _ _ _ _).2]
  retire := fun _ _ _ _ _ h => h
  row := fun db aid doc _ _ _ _ r t hok _ haid _ _ _ h => by
    have hne : id ≠ aid := by
      rintro rfl
      exact hok (docId_ok haid)
    unfold RowStands at h ⊢
    rwa [(Store.rowStored_rows db aid _ r _ t).1, AList.lookup_insert_ne hne]
  reparent := by
    intro doc v h hid
    rw [Doc.get_set_of_ne _ _ (by decide)] at hid
    exact h hid

/-- **The invariant of a sweep**: every id up to the cursor that all answers held was handed over; of a finished sweep,
every id. -/
structure Pull.Sound (id : String) (row : Option VRow) (p : Pull) : Prop where
  idle : p.node.inTxn = false
  stands : p.node.db.vertex.lookup id = row
  nonneg : 0 ≤ p.offset
  ready : p.after = "" → p.offset = 0
  asked : ∀ q ∈ p.log.asked, q.2 = "" → q.1 = 0
  ended : p.exhausted = true → p.stopped = true ∧ p.offset = 0 ∧ p.after = ""
  covered : ∀ x ≠ "", p.exhausted = true ∨ x ≤ p.after → (∀ peer ∈ p.log.answered, HeldAt peer.1 x) →
    ∃ d ∈ p.log.handed, d.get "id" = .str x

/-- A request that carries a cursor is answered from rows beyond it, and no row that replicates lies under the
local cursor's id. -/
def Pull.Clear (id : String) (tries : ℕ → Tries) (p : Pull) (i : ℕ) : Prop :=
  p.stopped = false → ∀ j < 3, ∀ peer, tries i j = some peer →
    (p.after = "" ∨ ∃ x, (peer.1.vertex.lookup x).isSome = true ∧ p.after < x) ∧ ¬HeldAt peer.1 id

variable {tries : ℕ → Tries}

section Turn

variable {id : String} {row : Option VRow} {p : Pull} {limit : ℕ+} {peer : Peer} {page : Page}

theorem Pull.Sound.moved (h : p.Sound id row) {q : Pull} (hof : PageOf peer.1 q.after limit q.offset page)
    (hp : p.after = q.after) (hoff : p.offset = q.offset) (hrun : p.exhausted = false)
    (hbeyond : q.after = "" ∨ ∃ x, (peer.1.vertex.lookup x).isSome = true ∧ q.after < x)
    (hpeer : peer ∈ p.log.answered)
    (hhanded : ∀ x ∈ pageIds peer.1 q.after limit, HeldAt peer.1 x → ∃ d ∈ p.log.handed, d.get "id" = .str x) :
    (p.moved page).Sound id row := by
  rw [← hp, ← hoff] at hof
  rw [← hp] at hbeyond hhanded
  -- an id is covered by what was handed over before, or by the page
  have hpage : ∀ x ≠ "", (p.after < x → x ∈ pageIds peer.1 p.after limit) →
      (∀ q ∈ p.log.answered, HeldAt q.1 x) → ∃ d ∈ p.log.handed, d.get "id" = .str x := by
    intro x hx hin hheld
    rcases lt_or_ge p.after x with hlt | hle
    · exact hhanded x (hin hlt) (hheld peer hpeer)
    · exact h.covered x hx (.inr hle) hheld
  have hsome : ∀ x, (∀ q ∈ p.log.answered, HeldAt q.1 x) → (peer.1.vertex.lookup x).isSome = true := by
    intro x hheld
    obtain ⟨r, hr, -⟩ := hheld peer hpeer
    rw [hr]
    rfl
  have hshort : page.exhausted = true → ∀ x ≠ "", (∀ q ∈ p.log.answered, HeldAt q.1 x) →
      ∃ d ∈ p.log.handed, d.get "id" = .str x := by
    intro hex x hx hheld
    rw [hof.short, decide_eq_true_eq] at hex
    exact hpage x hx (fun hlt => mem_pageIds_short hex (hsome x hheld) hlt) hheld
  unfold Pull.moved
  cases hlast : (pageIds peer.1 p.after limit).getLast? with
  | none =>
    have hnil := List.getLast?_eq_none_iff.mp hlast
    have hnext : page.nextAfter = p.after := by rw [hof.last, hlast]; rfl
    have hshort' : page.exhausted = true := by
      rw [hof.short, hnil]
      simp
    have hempty : p.after = "" := by
      refine hbeyond.resolve_right ?_
      rintro ⟨x, hx, hlt⟩
      have hmem := mem_pageIds_short (by rw [hnil]; exact limit.pos) hx hlt
      rw [hnil] at hmem
      cases hmem
    simp only [hnext, hempty, ne_eq, not_true_eq_false, false_and, if_false, if_true, hshort']
    exact ⟨h.idle, h.stands, le_refl _, fun _ => rfl, h.asked, fun _ => ⟨rfl, rfl, rfl⟩,
      fun x hx _ hheld => hshort hshort' x hx hheld⟩
  | some last =>
    have hmem := List.mem_of_getLast? hlast
    have hnext : page.nextAfter = last := by rw [hof.last, hlast]; rfl
    have hlt : p.after < last := (pageIds_after hmem).1
    have hne : last ≠ "" := pageIds_ne hmem
    simp only [hnext, hne, ne_eq, not_false_eq_true, true_and, hlt.ne', if_false]
    split_ifs with hex
    · exact ⟨h.idle, h.stands, le_refl _, fun _ => rfl, h.asked, fun _ => ⟨rfl, rfl, rfl⟩,
        fun x hx _ hheld => hshort hex x hx hheld⟩
    · refine ⟨h.idle, h.stands, ?_, fun he => absurd he hne, h.asked, fun he => ?_, fun x hx hxle hheld => ?_⟩
      · dsimp only
        rw [hof.offset]
        have := h.nonneg
        omega
      · exact absurd he (by simp [hrun])
      · refine hpage x hx (fun hlo => ?_) hheld
        rcases hxle with he | hle
        · exact absurd he (by simp [hrun])
        · exact mem_pageIds hlast (hsome x hheld) hlo hle

theorem storePage_keeps {docs : List Doc} (hdocs : ∀ d ∈ docs, d.get "id" ≠ .str id) :
    Keeps (RowStands id row) (storePage docs) n :=
  keeps_ite (fun _ => keeps_pure _ n) fun _ => keeps_putMany (rowStands_rowRules id row) 100 .keepLocal hdocs

theorem Pull.Sound.turn (h : p.Sound id row) (hc : p.Clear id tries i) :
    (p.turn limit (tries i)).Sound id row := by
  unfold Pull.turn
  by_cases hstop : p.stopped = true
  · rwa [if_pos hstop]
  rw [if_neg hstop]
  rw [Bool.not_eq_true] at hstop
  have hrun : p.exhausted = false := by
    by_contra he
    rw [(h.ended (Bool.not_eq_false _ ▸ he)).1] at hstop
    cases hstop
  have hasked : ∀ q ∈ (p.offset, p.after) :: p.log.asked, q.2 = "" → q.1 = 0 := by
    intro q hq he
    rcases List.mem_cons.mp hq with rfl | hq
    · exact h.ready he
    · exact h.asked q hq he
  dsimp only
  cases hans : answer limit (tries i) p.offset p.after with
  | none =>
    exact ⟨h.idle, h.stands, h.nonneg, h.ready, hasked, fun he => ⟨rfl, (h.ended he).2⟩, h.covered⟩
  | some q =>
    obtain ⟨peer, page⟩ := q
    obtain ⟨hof, j, hj, hpeer⟩ := answer_some (fun he => (h.ready he).le) hans
    obtain ⟨hbeyond, hclash⟩ := hc hstop j hj peer hpeer
    have hkeeps : Keeps (RowStands id row) (storePage (page.artifacts.filter fun d => (d.get "id").truthy)) p.node := by
      refine storePage_keeps fun d hd hid => ?_
      obtain ⟨x, -, hheld, hx⟩ := hof.held d (List.mem_filter.mp hd).1
      rw [hx] at hid
      exact hclash (Val.str.inj hid ▸ hheld)
    have hruns := hkeeps h.stands
    have hold : ∀ {handed : List Doc}, (∀ d ∈ p.log.handed, d ∈ handed) → ∀ x ≠ "", p.exhausted = true ∨ x ≤ p.after →
        (∀ q ∈ peer :: p.log.answered, HeldAt q.1 x) → ∃ d ∈ handed, d.get "id" = .str x := by
      intro handed hsub x hx hle hheld
      obtain ⟨d, hd, hid⟩ := h.covered x hx hle fun q hq => hheld q (List.mem_cons_of_mem _ hq)
      exact ⟨d, hsub d hd, hid⟩
    have hsub : ∀ d ∈ p.log.handed, d ∈ p.log.handed ++ page.artifacts.filter fun d => (d.get "id").truthy :=
      fun d hd => List.mem_append_left _ hd
    unfold Pull.received
    dsimp only
    cases hr : storePage (page.artifacts.filter fun d => (d.get "id").truthy) p.node with
    | error e n' =>
      obtain ⟨hidle, hstands⟩ := hruns.error hr
      exact ⟨hidle.trans h.idle, hstands h.idle, h.nonneg, h.ready, hasked, fun he => ⟨rfl, (h.ended he).2⟩, hold hsub⟩
    | ok k n' =>
      obtain ⟨hstands, hidle⟩ := hruns.ok hr
      refine Pull.Sound.moved ?_ hof rfl rfl hrun hbeyond (List.mem_cons_self ..) fun x hx hheld => ?_
      · exact ⟨hidle.trans h.idle, hstands, h.nonneg, h.ready, hasked, h.ended, hold hsub⟩
      · obtain ⟨d, hd, hid⟩ := hof.holds x hx hheld
        refine ⟨d, List.mem_append_right _ (List.mem_filter.mpr ⟨hd, ?_⟩), hid⟩
        rw [hid, Val.truthy_str]
        simpa using pageIds_ne hx

theorem Pull.moved_moves (hof : PageOf peer.1 p.after limit p.offset page) :
    (p.moved page).exhausted = true ∨
      ∃ x, (peer.1.vertex.lookup x).isSome = true ∧ p.after < x ∧ x ≤ (p.moved page).after := by
  by_cases hex : page.exhausted = true
  · left
    unfold Pull.moved
    dsimp only
    split_ifs <;> rfl
  right
  rw [hof.short, decide_eq_true_eq, not_lt] at hex
  cases hlast : (pageIds peer.1 p.after limit).getLast? with
  | none =>
    rw [List.getLast?_eq_none_iff.mp hlast] at hex
    exact absurd hex (by simp)
  | some last =>
    have hmem := List.mem_of_getLast? hlast
    have hnext : page.nextAfter = last := by rw [hof.last, hlast]; rfl
    obtain ⟨hlt, hsome⟩ := pageIds_after hmem
    refine ⟨last, hsome, hlt, ?_⟩
    have hlong : page.exhausted = false := by
      rw [hof.short, decide_eq_false_iff_not, not_lt]
      exact hex
    unfold Pull.moved
    simp only [hnext, pageIds_ne hmem, ne_eq, not_false_eq_true, true_and, hlt.ne', if_false, hlong,
      Bool.false_eq_true, le_refl]

theorem Pull.turn_moves (h : p.Sound id row) (hstop : p.stopped = false) :
    (p.turn limit (tries i)).exhausted = true ∨
      (∃ j < 3, ∃ peer x, tries i j = some peer ∧ (peer.1.vertex.lookup x).isSome = true ∧ p.after < x ∧
        x ≤ (p.turn limit (tries i)).after) ∨
      (p.turn limit (tries i)).stopped = true ∧ (p.turn limit (tries i)).after = p.after ∧
        ((p.turn limit (tries i)).raised = true ∨ answer limit (tries i) p.offset p.after = none) := by
  unfold Pull.turn
  rw [if_neg (by simp [hstop])]
  dsimp only
  cases hans : answer limit (tries i) p.offset p.after with
  | none => exact .inr (.inr ⟨rfl, rfl, .inr rfl⟩)
  | some q =>
    obtain ⟨peer, page⟩ := q
    obtain ⟨hof, j, hj, hpeer⟩ := answer_some (fun he => (h.ready he).le) hans
    unfold Pull.received
    dsimp only
    cases storePage (page.artifacts.filter fun d => (d.get "id").truthy) p.node with
    | error e n' => exact .inr (.inr ⟨rfl, rfl, .inl rfl⟩)
    | ok k n' =>
      dsimp only
      refine (Pull.moved_moves (by exact hof)).imp_right fun hx => ?_
      obtain ⟨x, hx, hlt, hle⟩ := hx
      exact .inl ⟨j, hj, peer, x, hpeer, hx, hlt, hle⟩

theorem Pull.turn_ahead (h : p.Sound id row) {a : String} (ha : p.exhausted = true ∨ a ≤ p.after) :
    (p.turn limit (tries i)).exhausted = true ∨ a ≤ (p.turn limit (tries i)).after := by
  by_cases hstop : p.stopped = true
  · unfold Pull.turn
    rwa [if_pos hstop]
  · rw [Bool.not_eq_true] at hstop
    have hle : a ≤ p.after := ha.resolve_left fun he => by rw [(h.ended he).1] at hstop; cases hstop
    rcases Pull.turn_moves h hstop with he | ⟨j, -, peer, x, -, -, hlt, hx⟩ | ⟨-, hsame, -⟩
    · exact .inl he
    · exact .inr (hle.trans (hlt.le.trans hx))
    · exact .inr (hsame ▸ hle)

end Turn

/-! ### The cursor -/

theorem putConsumed_version {d : Doc} {x : String} (hid : d.get "id" = .str x) (hn : n.inTxn = false) :
    Runs (putArtifact d false false) n (fun _ n' => VersionPut d x n.db n'.db ∧ n'.inTxn = false)
      fun n' => n'.db = n.db ∧ n'.inTxn = false := by
  rw [putArtifact_consumed]
  refine runs_ite (fun _ => runs_throw ⟨rfl, hn⟩) fun _ => ?_
  refine (write_commits (fun _ => fun _ _ hs h => h.then_sameTables hs) hn fun m hm => ?_).mono (fun _ _ h => h)
    fun _ h => h
  refine (putConsumed_tables d m).mono ?_ fun _ _ => trivial
  rintro - m' ⟨origin, s, -, hw⟩
  exact hm ▸ hw.version hid

theorem HoldsBut.int {ks : List String} {d e : Doc} (h : HoldsBut ks d e) {k : String} {m : ℤ} (hk : k ∉ ks)
    (hd : d.get k = .int m) : e.get k = .int m := by
  have hn := h k hk
  rw [hd] at hn
  cases he : e.get k <;> rw [he] at hn <;> simp_all [Val.norm]

section Cursor

variable {c : CursorAt} {p : Pull} {row : Option VRow}

theorem storeCursor_start (g : Genesis) (now : String) (h : p.Sound c.id row) :
    Runs (storeCursor g c now p) p.node
      (fun _ n' => n'.inTxn = false ∧ ∀ log, ∃ q, Pull.start c log n' = .ok q ∧ q.node = n' ∧ q.offset = p.offset ∧
        q.after = p.after ∧ q.exhausted = false ∧ q.log = log)
      fun n' => n'.db = p.node.db ∧ n'.inTxn = false := by
  unfold storeCursor putOp
  refine runs_bind (runs_ofExcept (fun total _ => ?_) ⟨rfl, h.idle⟩)
  refine runs_ite (fun _ => runs_throw ⟨rfl, h.idle⟩) fun _ => ?_
  have hget : ∀ k, k ≠ "_origin" → k ≠ "_seq" →
      (opDoc (sweepCursor g c now total p)).get k = (sweepCursor g c now total p).get k := by
    intro k ho hs
    unfold opDoc
    rw [Doc.get_set_of_ne _ _ hs, Doc.get_set_of_ne _ _ ho]
  refine runs_bind ((putConsumed_version ((hget _ (by decide) (by decide)).trans rfl) h.idle).imp ?_)
  rintro - n' ⟨⟨r, hr, hv⟩, hidle⟩
  have hcur : artifactOr n'.db c.id = r.doc.val := by
    unfold artifactOr
    rw [hv, AList.lookup_insert]
  have hoff : r.doc.val.get "page_offset" = .int p.offset :=
    hr.holds.int (by decide) ((hget _ (by decide) (by decide)).trans rfl)
  have hafter : r.doc.val.get "page_after" = .str p.after :=
    hr.holds.str (by decide) ((hget _ (by decide) (by decide)).trans rfl)
  have hint : pyInt ((Val.int p.offset).orElse (.int 0)) = .ok p.offset := by
    unfold Val.orElse
    split_ifs with ht
    · rfl
    · have hz : p.offset = 0 := by simpa [Val.truthy] using ht
      rw [hz]
      rfl
  have hstr : ((Val.str p.after).orElse (.str "")).pyStr = p.after := by
    unfold Val.orElse
    split_ifs with ht
    · rfl
    · have hz : p.after = "" := by simpa [Val.truthy] using ht
      rw [hz]
      rfl
  refine runs_pure ⟨hidle, fun log => ⟨Pull.opened c log n' p.offset, ?_, rfl, rfl, ?_, rfl, rfl⟩⟩
  · unfold Pull.start
    rw [hcur, hoff, hint]
    rfl
  · unfold Pull.opened
    rw [hcur, hafter, hstr]

theorem start_congr {n' : Node} (h : n'.db.vertex.lookup c.id = n.db.vertex.lookup c.id) {log : SweepLog}
    (hs : Pull.start c log n = .ok p) (log' : SweepLog) : ∃ q, Pull.start c log' n' = .ok q ∧ q.node = n' ∧
      q.offset = p.offset ∧ q.after = p.after ∧ q.exhausted = false ∧ q.log = log' := by
  have hcur : artifactOr n'.db c.id = artifactOr n.db c.id := by
    unfold artifactOr
    rw [h]
  obtain ⟨offset, hoff, rfl⟩ := map_ok hs
  refine ⟨Pull.opened c log' n' offset, ?_, rfl, rfl, ?_, rfl, rfl⟩
  · unfold Pull.start
    rw [hcur, hoff]
    rfl
  · unfold Pull.opened
    rw [hcur]

theorem start_opened {log : SweepLog} (hs : Pull.start c log n = .ok p) :
    ∃ offset, p = Pull.opened c log n offset := by
  obtain ⟨offset, -, rfl⟩ := map_ok hs
  exact ⟨offset, rfl⟩

end Cursor

/-! ### Calls -/

/-- What a finished sweep handed over: every row that replicates and that all its answers held. -/
def SweepLog.Complete (log : SweepLog) : Prop :=
  ∀ x ≠ "", (∀ peer ∈ log.answered, HeldAt peer.1 x) → ∃ d ∈ log.handed, d.get "id" = .str x

def Visit.Clear (c : CursorAt) (s : Sweeps) (v : Visit) : Prop :=
  ∀ p, Pull.start c s.log s.node = .ok p →
    Along (fun p i => p.turn v.page (v.tries i)) (Pull.Clear c.id v.tries) p (List.range v.maxPages)

/-- Each request with a cursor finds rows beyond it; anything else the node does leaves the cursor alone. -/
def SweepEvent.Clear (c : CursorAt) (s : Sweeps) : SweepEvent → Prop
  | .visit v => v.Clear c s
  | .elsewhere n' => n'.inTxn = false ∧ n'.db.vertex.lookup c.id = s.node.db.vertex.lookup c.id

/-- Between two calls. -/
structure Sweeps.Sound (c : CursorAt) (s : Sweeps) : Prop where
  starts : ∃ p, Pull.start c s.log s.node = .ok p ∧ p.Sound c.id (s.node.db.vertex.lookup c.id)
  completed : ∀ log ∈ s.completed, log.Complete
  fresh : s.reports.head? = some (some true) → s.log.answered = [] ∧ s.log.handed = [] ∧
    ∃ p, Pull.start c s.log s.node = .ok p ∧ p.offset = 0 ∧ p.after = ""

section Calls

variable {g : Genesis} {c : CursorAt} {s : Sweeps}

theorem Visit.pages_sound {v : Visit} {p : Pull} (h : p.Sound c.id row)
    (hc : Along (fun p i => p.turn v.page (v.tries i)) (Pull.Clear c.id v.tries) p (List.range v.maxPages)) :
    (v.pages p).Sound c.id row :=
  along_inv (fun (p : Pull) _ (h : p.Sound c.id row) hc => h.turn hc) _ p h hc

theorem Visit.pages_ahead {v : Visit} {p : Pull} (h : p.Sound c.id row)
    (hc : Along (fun p i => p.turn v.page (v.tries i)) (Pull.Clear c.id v.tries) p (List.range v.maxPages)) :
    (v.pages p).exhausted = true ∨ p.after ≤ (v.pages p).after :=
  (along_inv (fun (q : Pull) _ (hq : q.Sound c.id row ∧ (q.exhausted = true ∨ p.after ≤ q.after)) hc =>
    ⟨hq.1.turn hc, Pull.turn_ahead hq.1 hq.2⟩) _ p ⟨h, .inr le_rfl⟩ hc).2

theorem Pull.Sound.again {p q r : Pull} (h : p.Sound c.id row) (hq : q.Sound c.id row)
    (hahead : q.exhausted = true ∨ p.after ≤ q.after) (hr : r.node.inTxn = false) (hlog : r.log = q.log)
    (hoff : r.offset = p.offset) (hafter : r.after = p.after) (hex : r.exhausted = false) :
    r.Sound c.id (r.node.db.vertex.lookup c.id) where
  idle := hr
  stands := rfl
  nonneg := hoff ▸ h.nonneg
  ready := by rw [hoff, hafter]; exact h.ready
  asked := hlog ▸ hq.asked
  ended := fun he => absurd he (by simp [hex])
  covered := by
    intro x hx hle hheld
    rw [hlog] at hheld ⊢
    rw [hex, hafter] at hle
    have hle := hle.resolve_left Bool.false_ne_true
    exact hq.covered x hx (hahead.imp_right fun ha => hle.trans ha) hheld

theorem Pull.Sound.resume {p q : Pull} (h : p.Sound c.id row) (hq : q.node.inTxn = false) (hlog : q.log = p.log)
    (hoff : q.offset = p.offset) (hafter : q.after = p.after) (hex : q.exhausted = false) :
    q.Sound c.id (q.node.db.vertex.lookup c.id) :=
  h.again h (.inr le_rfl) hq hlog hoff hafter hex

theorem Sweeps.Sound.visit (h : s.Sound c) {v : Visit} (hc : v.Clear c s) : (s.visit g c v).Sound c := by
  obtain ⟨p, hp, hsound⟩ := h.starts
  have hpages := Visit.pages_sound hsound (hc p hp)
  have hahead := Visit.pages_ahead hsound (hc p hp)
  -- a call that stores no cursor
  have hunstored : ∀ n' : Node, n'.inTxn = false → n'.db.vertex.lookup c.id = s.node.db.vertex.lookup c.id →
      Sweeps.Sound c ⟨n', (v.pages p).log, s.completed, none :: s.reports⟩ := by
    intro n' hidle hrow
    obtain ⟨q, hq, hnode, hoff, hafter, hex, hlog⟩ := start_congr hrow hp (v.pages p).log
    refine ⟨⟨q, hq, ?_⟩, h.completed, fun he => by cases he⟩
    have := hsound.again hpages hahead (by rw [hnode]; exact hidle) hlog hoff hafter hex
    rwa [hnode] at this
  unfold Sweeps.visit
  rw [hp]
  dsimp only
  split_ifs with hraised
  · exact hunstored _ hpages.idle hpages.stands
  have hstore := storeCursor_start g v.now hpages
  cases hr : storeCursor g c v.now (v.pages p) (v.pages p).node with
  | error e n' =>
    obtain ⟨hdb, hidle⟩ := hstore.error hr
    exact hunstored n' hidle (hdb ▸ hpages.stands)
  | ok u n' =>
    obtain ⟨hidle, hstart⟩ := hstore.ok hr
    unfold Sweeps.reported
    dsimp only
    split_ifs with hex
    · obtain ⟨-, hoff, hafter⟩ := hpages.ended hex
      obtain ⟨q, hq, hnode, hqoff, hqafter, hqex, hqlog⟩ := hstart ⟨(v.pages p).log.asked, [], []⟩
      refine ⟨⟨q, hq, ?_⟩, ?_, fun _ => ⟨rfl, rfl, q, hq, hqoff.trans hoff, hqafter.trans hafter⟩⟩
      · refine ⟨by rw [hnode]; exact hidle, by rw [hnode], by rw [hqoff]; exact hpages.nonneg, fun _ => hqoff.trans hoff,
          hqlog ▸ hpages.asked, fun he => absurd he (by simp [hqex]), fun x hx hle _ => ?_⟩
        rw [hqex, hqafter, hafter] at hle
        have hle := hle.resolve_left Bool.false_ne_true
        exact absurd (lt_of_le_of_ne hle hx) (not_lt_empty x)
      · intro log hlog
        rcases List.mem_cons.mp hlog with rfl | hlog
        · exact fun x hx hheld => hpages.covered x hx (.inl hex) hheld
        · exact h.completed log hlog
    · obtain ⟨q, hq, hnode, hqoff, hqafter, hqex, hqlog⟩ := hstart (v.pages p).log
      refine ⟨⟨q, hq, ?_⟩, h.completed, fun he => by cases he⟩
      have := hpages.resume (by rw [hnode]; exact hidle) hqlog hqoff hqafter hqex
      rwa [hnode] at this

theorem Sweeps.Sound.step (h : s.Sound c) {e : SweepEvent} (hc : e.Clear c s) : (s.step g c e).Sound c := by
  cases e with
  | visit v => exact h.visit hc
  | elsewhere n' =>
    obtain ⟨hidle, hrow⟩ := hc
    obtain ⟨p, hp, hsound⟩ := h.starts
    obtain ⟨q, hq, hnode, hoff, hafter, hex, hlog⟩ := start_congr hrow hp s.log
    have hplog : p.log = s.log := by
      obtain ⟨offset, rfl⟩ := start_opened hp
      rfl
    refine ⟨⟨q, hq, ?_⟩, h.completed, fun he => ?_⟩
    · have := hsound.resume (by rw [hnode]; exact hidle) (hlog.trans hplog.symm) hoff hafter hex
      rwa [hnode] at this
    · obtain ⟨hans, hhanded, r, hr, hroff, hrafter⟩ := h.fresh he
      rw [hp] at hr
      cases hr
      exact ⟨hans, hhanded, q, hq, hoff.trans hroff, hafter.trans hrafter⟩

theorem turns_stopped {v : Visit} {p : Pull} (h : p.stopped = true) :
    ∀ is : List ℕ, is.foldl (fun p i => p.turn v.page (v.tries i)) p = p
  | [] => rfl
  | i :: is => by
    rw [List.foldl_cons]
    have hturn : p.turn v.page (v.tries i) = p := by
      unfold Pull.turn
      rw [if_pos h]
    rw [hturn, turns_stopped h is]

end Calls

/-! ### Progress -/

/-- Every page of the call is answered, from rows of those ids. -/
def SweepEvent.Answers (ids : List String) : SweepEvent → Prop
  | .visit v => ∀ i < (v.maxPages : ℕ), (∃ j < 3, (v.tries i j).isSome = true) ∧
      ∀ j < 3, ∀ peer, v.tries i j = some peer → ∀ x, (peer.1.vertex.lookup x).isSome = true → x ∈ ids
  | .elsewhere _ => True

/-- The calls among some events. -/
def visits : List SweepEvent → ℕ
  | [] => 0
  | .visit _ :: es => visits es + 1
  | .elsewhere _ :: es => visits es

/-- How many of the ids are beyond a cursor. -/
def pagesAhead (ids : List String) (after : String) : ℕ := (ids.filter fun x => after < x).length

theorem remaining_lt {ids : List String} {a b x : String} (hx : x ∈ ids) (hlo : a < x) (hhi : x ≤ b) :
    pagesAhead ids b < pagesAhead ids a := by
  have hsub : ids.filter (fun x => b < x) = (ids.filter fun x => a < x).filter fun x => b < x := by
    rw [List.filter_filter]
    refine List.filter_congr fun y _ => ?_
    by_cases hy : b < y
    · simp [hy, (hlo.trans_le hhi).trans hy]
    · simp [hy]
  unfold pagesAhead
  rw [hsub]
  refine List.length_filter_lt_length_iff_exists.mpr ⟨x, List.mem_filter.mpr ⟨hx, decide_eq_true hlo⟩, ?_⟩
  rw [decide_eq_true_eq]
  exact not_lt_of_ge hhi

def cursorAfter (c : CursorAt) (n : Node) : String :=
  (((artifactOr n.db c.id).get "page_after").orElse (.str "")).pyStr

section Progress

variable {g : Genesis} {c : CursorAt} {s : Sweeps} {ids : List String}

theorem start_after {log : SweepLog} {p : Pull} (hs : Pull.start c log n = .ok p) :
    p.after = cursorAfter c n := by
  obtain ⟨offset, rfl⟩ := start_opened hs
  rfl

theorem Visit.pages_moves {v : Visit} {p : Pull} (h : p.Sound c.id row) (hstop : p.stopped = false)
    (hc : Along (fun p i => p.turn v.page (v.tries i)) (Pull.Clear c.id v.tries) p (List.range v.maxPages))
    (ha : (SweepEvent.visit v).Answers ids) :
    (v.pages p).raised = true ∨ (v.pages p).exhausted = true ∨ ∃ x ∈ ids, p.after < x ∧ x ≤ (v.pages p).after := by
  obtain ⟨⟨j, hj, hans⟩, hids⟩ := ha 0 v.maxPages.pos
  obtain ⟨k, hk⟩ := Nat.exists_eq_succ_of_ne_zero v.maxPages.pos.ne'
  unfold Visit.pages
  rw [hk, List.range_succ_eq_map] at hc ⊢
  rw [List.foldl_cons]
  have hfirst : (p.turn v.page (v.tries 0)).Sound c.id row := h.turn hc.1
  rcases Pull.turn_moves h hstop with he | ⟨j', hj', peer, x, hpeer, hx, hlt, hle⟩ | ⟨hst, -, hno⟩
  · rw [turns_stopped (hfirst.ended he).1]
    exact .inr (.inl he)
  · have hrest := (along_inv (fun (q : Pull) _ (hq : q.Sound c.id row ∧
        (q.exhausted = true ∨ (p.turn v.page (v.tries 0)).after ≤ q.after)) hc =>
      ⟨hq.1.turn hc, Pull.turn_ahead hq.1 hq.2⟩) _ (p.turn v.page (v.tries 0)) ⟨hfirst, .inr le_rfl⟩ hc.2).2
    exact .inr (hrest.imp_right fun hr => ⟨x, hids j' hj' peer hpeer x hx, hlt, hle.trans hr⟩)
  · rw [turns_stopped hst]
    refine .inl (hno.resolve_right fun hnone => ?_)
    obtain ⟨q, hq⟩ := answer_isSome (fun he => (h.ready he).le) hj hans
    rw [hnone] at hq
    cases hq

theorem Sweeps.Sound.progress (h : s.Sound c) {v : Visit} (hc : v.Clear c s) (ha : (SweepEvent.visit v).Answers ids) :
    ∃ r, (s.visit g c v).reports = r :: s.reports ∧
      (r = some false → pagesAhead ids (cursorAfter c (s.visit g c v).node) < pagesAhead ids (cursorAfter c s.node)) := by
  obtain ⟨p, hp, hsound⟩ := h.starts
  have hpages := Visit.pages_sound hsound (hc p hp)
  have hstop : p.stopped = false := by
    obtain ⟨offset, rfl⟩ := start_opened hp
    rfl
  have hmoves := Visit.pages_moves hsound hstop (hc p hp) ha
  unfold Sweeps.visit
  rw [hp]
  dsimp only
  split_ifs with hraised
  · exact ⟨none, rfl, fun he => nomatch he⟩
  have hstore := storeCursor_start g v.now hpages
  cases hr : storeCursor g c v.now (v.pages p) (v.pages p).node with
  | error e n' => exact ⟨none, rfl, fun he => nomatch he⟩
  | ok u n' =>
    obtain ⟨-, hstart⟩ := hstore.ok hr
    unfold Sweeps.reported
    dsimp only
    split_ifs with hex
    · exact ⟨some true, rfl, fun he => nomatch he⟩
    · refine ⟨some false, rfl, fun _ => ?_⟩
      obtain ⟨q, hq, -, -, hqafter, -⟩ := hstart s.log
      obtain ⟨x, hx, hlt, hle⟩ := (hmoves.resolve_left hraised).resolve_left hex
      rw [← start_after hq, ← start_after hp, hqafter]
      exact remaining_lt hx hlt hle

/-- **Calls that are answered come to the end.** -/
theorem Sweeps.Sound.finishes : ∀ (es : List SweepEvent) (s : Sweeps), s.Sound c →
    Along (Sweeps.step g c) (SweepEvent.Clear c) s es → (∀ e ∈ es, e.Answers ids) →
    ∃ new, (es.foldl (Sweeps.step g c) s).reports = new ++ s.reports ∧ new.length = visits es ∧
      ((∀ r ∈ new, r = some false) →
        visits es + pagesAhead ids (cursorAfter c (es.foldl (Sweeps.step g c) s).node) ≤ pagesAhead ids (cursorAfter c s.node))
  | [], s, _, _, _ => ⟨[], rfl, rfl, fun _ => by rw [visits, Nat.zero_add]; rfl⟩
  | .visit v :: es, s, h, hc, ha => by
    obtain ⟨r, hr, hless⟩ := h.progress (g := g) hc.1 (ha _ (List.mem_cons_self ..))
    obtain ⟨new, hnew, hlen, hrest⟩ := Sweeps.Sound.finishes es _ (h.step hc.1) hc.2
      fun e he => ha e (List.mem_cons_of_mem _ he)
    have hstep : (s.step g c (.visit v)).reports = r :: s.reports := hr
    refine ⟨new ++ [r], ?_, ?_, fun hall => ?_⟩
    · rw [List.foldl_cons, hnew, hstep, List.append_assoc, List.singleton_append]
    · rw [List.length_append, hlen, List.length_singleton, visits]
    · have h1 := hrest fun q hq => hall q (List.mem_append_left _ hq)
      have h2 := hless (hall r (by simp))
      rw [List.foldl_cons, visits]
      have hnode : (s.step g c (.visit v)).node = (s.visit g c v).node := rfl
      rw [hnode] at h1
      omega
  | .elsewhere n' :: es, s, h, hc, ha => by
    obtain ⟨new, hnew, hlen, hrest⟩ := Sweeps.Sound.finishes es _ (h.step hc.1) hc.2
      fun e he => ha e (List.mem_cons_of_mem _ he)
    refine ⟨new, by rw [List.foldl_cons, hnew]; rfl, by rw [hlen, visits], fun hall => ?_⟩
    have hcur : cursorAfter c (s.step g c (.elsewhere n')).node = cursorAfter c s.node := by
      unfold cursorAfter artifactOr
      rw [show (s.step g c (.elsewhere n')).node = n' from rfl, hc.1.2]
    rw [List.foldl_cons, visits, ← hcur]
    exact hrest hall

end Progress

/-- A node that has not pulled from the peer yet. -/
def Sweeps.first (n : Node) : Sweeps := ⟨n, ⟨[], [], []⟩, [], []⟩

theorem Sweeps.first_sound {c : CursorAt} (hidle : n.inTxn = false) (hnone : n.db.vertex.lookup c.id = none) :
    (Sweeps.first n).Sound c := by
  have hcur : artifactOr n.db c.id = [] := by
    unfold artifactOr
    rw [hnone]
  have hafter : (Pull.opened c ⟨[], [], []⟩ n 0).after = "" := by
    unfold Pull.opened
    rw [hcur]
    rfl
  refine ⟨⟨Pull.opened c ⟨[], [], []⟩ n 0, ?_, ?_⟩, (fun _ h => nomatch h), fun h => nomatch h⟩
  · unfold Pull.start
    rw [show (Sweeps.first n).node = n from rfl, hcur]
    rfl
  · refine ⟨hidle, rfl, le_refl _, fun _ => rfl, (fun _ h => nomatch h), (fun h => nomatch h), fun x hx hle _ => ?_⟩
    have hle : x ≤ "" := hafter ▸ hle.resolve_left Bool.false_ne_true
    exact absurd (lt_of_le_of_ne hle hx) (not_lt_empty x)

/-- **A peer sweep completes and can start again**, where no cursor is answered from a store without rows beyond it. -/
theorem pull_completes {g : Genesis} {c : CursorAt} {n : Node} {events : List SweepEvent} (hidle : n.inTxn = false)
    (hnone : n.db.vertex.lookup c.id = none)
    (hclear : Along (Sweeps.step g c) (SweepEvent.Clear c) (Sweeps.first n) events) {s : Sweeps}
    (hs : events.foldl (Sweeps.step g c) (Sweeps.first n) = s) :
    (∀ q ∈ s.log.asked, ∀ (peer : Peer) limit, ∃ page, exportPage peer.1 q.1 q.2 limit = .ok page) ∧
    (∀ ids before later, events = before ++ later → (∀ e ∈ later, e.Answers ids) →
      (∀ r ∈ s.reports.take (visits later), r = some false) → visits later ≤ ids.length) ∧
    (∀ log ∈ s.completed, ∀ x ≠ "", (∀ peer ∈ log.answered, HeldAt peer.1 x) →
      ∃ d ∈ log.handed, d.get "id" = .str x) ∧
    (s.reports.head? = some (some true) → s.log.answered = [] ∧ s.log.handed = [] ∧
      ∃ p, Pull.start c s.log s.node = .ok p ∧ p.offset = 0 ∧ p.after = "") := by
  have hfirst := Sweeps.first_sound hidle hnone
  have hsound : s.Sound c := by
    rw [← hs]
    exact along_inv (fun (s : Sweeps) e (h : s.Sound c) hc => h.step hc) events _ hfirst hclear
  refine ⟨fun q hq peer limit => ?_, fun ids before later he ha hall => ?_, hsound.completed, hsound.fresh⟩
  · obtain ⟨p, hp, hps⟩ := hsound.starts
    obtain ⟨offset, rfl⟩ := start_opened hp
    obtain ⟨page, hok, -⟩ := exportPage_ok peer fun hq' => (hps.asked q hq hq').le
    exact ⟨page, hok⟩
  · subst he
    obtain ⟨hbefore, hlater⟩ := along_append before later _ hclear
    have hmid : (before.foldl (Sweeps.step g c) (Sweeps.first n)).Sound c :=
      along_inv (fun (s : Sweeps) e (h : s.Sound c) hc => h.step hc) before _ hfirst hbefore
    obtain ⟨new, hnew, hlen, hrest⟩ := Sweeps.Sound.finishes later _ hmid hlater ha
    rw [← List.foldl_append, hs] at hnew
    rw [hnew, ← hlen, List.take_left'  rfl] at hall
    have := hrest hall
    have hle : pagesAhead ids (cursorAfter c (before.foldl (Sweeps.step g c) (Sweeps.first n)).node) ≤ ids.length :=
      List.length_filter_le ..
    omega

theorem docsNamed_of_all {db : Store}
    (h : (db.vertex.toPairs.all fun row => (row.2.doc.val.get "id").eqStr row.1) = true) : DocsNamed db := by
  intro x r hr
  have := List.all_eq_true.mp h (x, r) (Table.mem_toPairs.mpr hr)
  exact eqStr_iff.mp this

def notePeer : Peer := ⟨noteNode.db, docsNamed_of_all (by decide +kernel)⟩

def noteVisit (maxPages page : ℕ+) : Visit := ⟨maxPages, page, fun _ _ => some notePeer, ""⟩

def noteCursor : CursorAt := ⟨"mesh.cursor.0", "http://peer"⟩

def noteSwept (maxPages page : ℕ+) : Sweeps :=
  (Sweeps.first draftNode).visit ⟨.none, .none⟩ noteCursor (noteVisit maxPages page)

theorem noteSwept_strands : ¬ ∀ (g : Genesis) (c : CursorAt) (n : Node) (v : Visit), n.inTxn = false →
    n.db.vertex.lookup c.id = none → ((Sweeps.first n).visit g c v).reports.head? = some (some true) →
    ∃ p, Pull.start c ((Sweeps.first n).visit g c v).log ((Sweeps.first n).visit g c v).node = .ok p ∧
      p.offset = 0 ∧ p.after = "" := by
  intro h
  have hreport : (noteSwept 2 1).reports.head? = some (some true) := by decide +kernel
  have hleft : (match Pull.start noteCursor (noteSwept 2 1).log (noteSwept 2 1).node with
      | .ok p => decide (p.offset = 0)
      | .error _ => true) = false := by decide +kernel
  obtain ⟨p, hp, hoff, -⟩ := h ⟨.none, .none⟩ noteCursor draftNode (noteVisit 2 1) rfl rfl hreport
  have hp : Pull.start noteCursor (noteSwept 2 1).log (noteSwept 2 1).node = .ok p := hp
  rw [hp] at hleft
  exact absurd hoff (of_decide_eq_false hleft)

theorem pull_completes_note :
    ∃ p, Pull.start noteCursor (noteSwept 1 2).log (noteSwept 1 2).node = .ok p ∧ p.offset = 0 ∧ p.after = "" := by
  have hclear : (noteVisit 1 2).Clear noteCursor (Sweeps.first draftNode) := by
    intro p hp
    obtain ⟨offset, rfl⟩ := start_opened hp
    refine ⟨fun _ j _ peer hpeer => ⟨.inl rfl, ?_⟩, trivial⟩
    cases hpeer
    rintro ⟨r, hr, -⟩
    have hnone : (notePeer.1.vertex.lookup noteCursor.id).isNone = true := by decide +kernel
    rw [hr] at hnone
    cases hnone
  have hreport : (noteSwept 1 2).reports.head? = some (some true) := by decide +kernel
  exact ((@pull_completes ⟨.none, .none⟩ noteCursor draftNode [.visit (noteVisit 1 2)] rfl rfl ⟨hclear, trivial⟩
    (noteSwept 1 2) rfl).2.2.2 hreport).2.2

end Mantle
