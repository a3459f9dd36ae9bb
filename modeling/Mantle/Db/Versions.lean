import Mantle.Access.Cascade
import Mantle.Db.Written

/-!
# Mantle.Db.Versions — the versions of an artifact

A write in place keeps the row it replaces as an archived snapshot, when the content changed; `revise` writes a new row
and archives the one before.
-/

namespace Mantle

open Tx Run

variable {a b c db : Store} {d doc e : Doc} {ks : List String} {n n' : Node} {p r : VRow}
  {root vid x y : String}

/-! ### Reading a lineage -/

def headOf (db : Store) (root : String) : Option Doc :=
  ((versionsOf db root).filter fun d => stateOf d ≠ stateArchived).getLast?

theorem mem_versionsOf_row (hroot : r.rootId = .str root) (hr : db.vertex.lookup x = some r) :
    r.doc.val ∈ versionsOf db root := by
  unfold versionsOf
  simp only [List.mem_map, List.mem_insertionSort, List.mem_filter, Prod.exists]
  exact ⟨x, r, ⟨Table.mem_toPairs.mpr hr, eqStr_iff.mpr hroot⟩, rfl⟩

theorem headOf_eq (hroot : r.rootId = .str root) (hr : db.vertex.lookup x = some r)
    (hlive : stateOf r.doc.val ≠ stateArchived)
    (hone : ∀ y q, db.vertex.lookup y = some q → q.rootId = .str root → stateOf q.doc.val ≠ stateArchived → q = r) :
    headOf db root = some r.doc.val := by
  have hmem : r.doc.val ∈ (versionsOf db root).filter fun d => stateOf d ≠ stateArchived := by
    refine List.mem_filter.mpr ⟨mem_versionsOf_row hroot hr, ?_⟩
    simpa using hlive
  have hall : ∀ d ∈ (versionsOf db root).filter fun d => stateOf d ≠ stateArchived, d = r.doc.val := by
    intro d hd
    obtain ⟨hd, hstate⟩ := List.mem_filter.mp hd
    obtain ⟨y, q, hy, hqroot, rfl⟩ := mem_versionsOf hd
    rw [hone y q hy (eqStr_iff.mp hqroot) (by simpa using hstate)]
  unfold headOf
  cases hlast : ((versionsOf db root).filter fun d => stateOf d ≠ stateArchived).getLast? with
  | none =>
    rw [List.getLast?_eq_none_iff.mp hlast] at hmem
    cases hmem
  | some d => rw [hall d (List.mem_of_getLast? hlast)]

/-! ### Documents that hold the same -/

/-- Two documents with the same JSON value under every key but those. -/
def HoldsBut (ks : List String) (d e : Doc) : Prop := ∀ k ∉ ks, (e.get k).norm = (d.get k).norm

theorem HoldsBut.refl (ks : List String) (d : Doc) : HoldsBut ks d d := fun _ _ => rfl

theorem HoldsBut.trans {c : Doc} (h : HoldsBut ks c d) (h' : HoldsBut ks d e) : HoldsBut ks c e :=
  fun k hk => (h' k hk).trans (h k hk)

theorem HoldsBut.mono {ks' : List String} (h : HoldsBut ks d e) (hks : ∀ k ∈ ks, k ∈ ks') :
    HoldsBut ks' d e := fun k hk => h k fun hmem => hk (hks k hmem)

theorem HoldsBut.set {k : String} (v : Val) (hk : k ∈ ks) : HoldsBut ks d (d.set k v) := by
  intro j hj
  rw [Doc.get_set_of_ne _ _ fun he => hj (by rw [he]; exact hk)]

theorem HoldsBut.symm (h : HoldsBut ks d e) : HoldsBut ks e d := fun k hk => (h k hk).symm

theorem HoldsBut.str (h : HoldsBut ks d e) {k s : String} (hk : k ∉ ks) (hd : d.get k = .str s) : e.get k = .str s := by
  have hn := h k hk
  rw [hd] at hn
  cases he : e.get k <;> rw [he] at hn <;> simp_all [Val.norm]

/-! ### One write in place -/

/-- The row of a document: what it holds but the stamps, the root that stands, and its content's reference. -/
structure VersionRow (d : Doc) (prev : Option VRow) (r : VRow) : Prop where
  holds : HoldsBut stampKeys d r.doc.val
  root : ∀ p, prev = some p → r.rootId = p.rootId
  fresh : prev = none → bindText ((d.get "root_id").orElse (d.get "id")) = .ok r.rootId
  ref : bindText (d.get "content_ref") = .ok r.contentRef

/-- The document is written under an id, and no other row is. -/
def VersionPut (d : Doc) (x : String) (db db' : Store) : Prop :=
  ∃ r, VersionRow d (db.vertex.lookup x) r ∧ db'.vertex = db.vertex.insert x r

theorem vertexRow_ref {origin : String} {seq : ℤ} {leaf : ℕ} {row : VRow} (h : vertexRow d origin seq leaf = .ok row) :
    bindText (d.get "content_ref") = .ok row.contentRef :=
  (vertexRow_binds h).2.1

theorem RowWritten.version {node origin : String} {seq : Val} {db' : Store} (h : RowWritten node d origin seq db db')
    (hid : d.get "id" = .str x) : VersionPut d x db db' := by
  obtain ⟨y, s, leaf, row, m, hy, -, hrow, hmv, -, hpl⟩ := h.row
  obtain rfl := Val.str.inj (hid.symm.trans (docId_ok hy))
  obtain ⟨-, -, -, hdoc⟩ := vertexRow_ok hrow
  obtain ⟨-, -, -, hup⟩ := upsertVertex_fields (db.vertex.lookup x) row
  have href : (upsertVertex (db.vertex.lookup x) row).contentRef = row.contentRef := by
    cases db.vertex.lookup x <;> rfl
  refine ⟨upsertVertex (db.vertex.lookup x) row, ⟨fun k hk => ?_, fun p hp => ?_, fun hnone => ?_, ?_⟩,
    (PlaceWritten.edges hpl).1.trans hmv⟩
  · rw [hup, hdoc, Doc.get_norm, stampedDoc_get hk, Val.norm_norm]
  · rw [hp]
    rfl
  · rw [hnone]
    have hroot := vertexRow_rootId hrow
    rwa [stampedDoc_get (by decide), stampedDoc_get (by decide)] at hroot
  · have := vertexRow_ref hrow
    rwa [stampedDoc_get (by decide), ← href] at this

theorem VersionPut.of_sameTables (h : VersionPut d x b c) (hab : SameTables a b) : VersionPut d x a c := by
  unfold VersionPut at h ⊢
  rwa [hab.vertex] at h

theorem VersionPut.then_sameTables (h : VersionPut d x a b) (hbc : SameTables b c) : VersionPut d x a c := by
  obtain ⟨r, hr, hv⟩ := h
  exact ⟨r, hr, hbc.vertex.trans hv⟩

theorem VersionPut.frame {db' : Store} (h : VersionPut d x db db') (hne : y ≠ x) :
    db'.vertex.lookup y = db.vertex.lookup y := by
  obtain ⟨r, -, hv⟩ := h
  rw [hv, AList.lookup_insert_ne hne]

theorem write_commits {α : Type} {body : DbM α} {Q : α → Store → Prop} (hQ : ∀ a, OfTables (Q a)) (hn : n.inTxn = false)
    (h : ∀ m : Node, m.db = n.db → Runs body m (fun a m' => Q a m'.db) fun _ => True) :
    Runs (write body) n (fun a n' => Q a n'.db ∧ n'.inTxn = false) fun n' => n'.db = n.db ∧ n'.inTxn = false := by
  have hb : Runs (do let a ← body; flush; pure a : DbM α) n.begin (fun a n' => Q a n'.db) fun _ => True := by
    refine runs_bind ((h n.begin rfl).imp ?_)
    intro a m hm
    refine runs_bind ((flush_runs m).mono ?_ fun _ _ => trivial)
    rintro - m' ⟨rfl, -⟩
    refine runs_pure (hQ a m.db _ ?_ hm)
    unfold Node.flushed
    split <;> exact ⟨rfl, rfl⟩
  unfold Runs
  rw [write_own hn]
  cases hr : (do let a ← body; flush; pure a : DbM α) n.begin with
  | ok a n' =>
    have hq := hb.ok hr
    exact ⟨hq, rfl⟩
  | error e n' => exact ⟨rfl, rfl⟩

theorem writeRow_returns (d : Doc) (origin : String) (seq : Val) (n : Node) :
    Runs (writeRow d origin seq) n (fun d' _ => HoldsBut stampKeys d d') fun _ => True := by
  unfold writeRow followRow
  refine runs_bind (runs_ofExcept (fun aid _ => ?_) trivial)
  refine runs_bind (runs_get (runs_bind ((writeVertex_runs rfl).mono ?_ fun _ _ => trivial)))
  rintro - n₁ -
  refine runs_bind ((quiet_recount _ _ _ _ _).imp ?_)
  rintro - n₂ -
  refine runs_bind ((quiet_syncTask _ _ _ _ _).imp ?_)
  rintro - n₃ -
  refine runs_bind ?_
  unfold Runs
  split
  · exact fun k hk => by rw [stampedDoc_get hk]
  · trivial

/-- A write of this node over a row cuts a version of it. -/
def cuts (p : VRow) (doc : Doc) (newVersion : Bool) : Bool :=
  ((doc.get "content_ref").truthy || newVersion) &&
    (newVersion || (p.contentRef.truthy && !p.contentRef.eqCol (doc.get "content_ref")))

theorem authored_writes (hid : d.get "id" = .str x) (m : Node) :
    Runs (do
        let v ← versionFor d true
        observeConsumed true v
        writeRow d v.1 v.2 : DbM Doc) m
      (fun d' m' => VersionPut d x m.db m'.db ∧ HoldsBut stampKeys d d') fun _ => True := by
  refine runs_bind ((quiet_versionFor d true m).imp ?_)
  intro v m₁ h₁
  refine runs_bind ((quiet_observeConsumed true v m₁).imp ?_)
  intro _ m₂ h₂
  refine ((writeRow_tables d v.1 v.2 m₂).and (writeRow_returns d v.1 v.2 m₂)).mono ?_ fun _ h => h.1
  rintro d' m₃ ⟨h₃, hret⟩
  exact ⟨(h₃.version hid).of_sameTables (h₁.trans h₂).tables, hret⟩

theorem versionPut_ofTables (d : Doc) (x : String) (db : Store) (P : Doc → Prop) (d' : Doc) :
    OfTables fun s => VersionPut d x db s ∧ P d' := fun _ _ hs h => ⟨h.1.then_sameTables hs, h.2⟩

theorem putArtifact_plain {newVersion : Bool} (hid : doc.get "id" = .str x) (hn : n.inTxn = false)
    (hcut : ∀ p, n.db.vertex.lookup x = some p → cuts p doc newVersion = false) :
    Runs (putArtifact doc true newVersion) n
      (fun d' n' => (VersionPut doc x n.db n'.db ∧ HoldsBut stampKeys doc d') ∧ n'.inTxn = false)
      fun n' => n'.db = n.db ∧ n'.inTxn = false := by
  unfold putArtifact
  refine runs_ite (fun _ => runs_throw ⟨rfl, hn⟩) fun _ => ?_
  refine write_commits (fun d' => versionPut_ofTables doc x n.db (HoldsBut stampKeys doc) d') hn ?_
  intro m hm
  have hsnap : Runs (withSnapshot doc true newVersion) m (fun d m' => d = doc ∧ m'.db = m.db) fun _ => True := by
    unfold withSnapshot docId
    rw [Bool.true_and, hid]
    refine runs_ite (fun hguard => ?_) fun _ => runs_pure ⟨rfl, rfl⟩
    refine runs_bind (runs_pure (runs_bind (runs_bind (runs_get (runs_pure ?_)))))
    dsimp only
    cases hp : m.db.vertex.lookup x with
    | none => exact runs_pure ⟨rfl, rfl⟩
    | some p =>
      have hno := hcut p (hm ▸ hp)
      unfold cuts at hno
      rw [hguard, Bool.true_and] at hno
      dsimp only
      rw [hno]
      exact runs_pure ⟨rfl, rfl⟩
  refine runs_bind (hsnap.imp ?_)
  rintro _ m₁ ⟨rfl, hdb⟩
  rw [← hm, ← hdb]
  exact authored_writes hid m₁

/-- **A write that cuts a version.** -/
theorem putArtifact_cut {newVersion : Bool} (hid : doc.get "id" = .str x) (hn : n.inTxn = false)
    (hp : n.db.vertex.lookup x = some p) (hcut : cuts p doc newVersion = true) (hsome : p.doc.val.isEmpty = false)
    (hne : snapshotId x p ≠ x) (hfree : n.db.vertex.lookup (snapshotId x p) = none) :
    Runs (putArtifact doc true newVersion) n
      (fun _ n' => (∃ m, VersionPut (snapshotDoc x p) (snapshotId x p) n.db m ∧
        VersionPut (doc.set "parent_id" (.str (snapshotId x p))) x m n'.db) ∧ n'.inTxn = false)
      fun n' => n'.db = n.db ∧ n'.inTxn = false := by
  unfold putArtifact
  refine runs_ite (fun _ => runs_throw ⟨rfl, hn⟩) fun _ => ?_
  refine write_commits (Q := fun _ s => ∃ m, VersionPut (snapshotDoc x p) (snapshotId x p) n.db m ∧
    VersionPut (doc.set "parent_id" (.str (snapshotId x p))) x m s) ?_ hn ?_
  · rintro - a b hab ⟨m, hs, hd⟩
    exact ⟨m, hs, hd.then_sameTables hab⟩
  intro m hm
  unfold cuts at hcut
  rw [Bool.and_eq_true] at hcut
  have hsnap : Runs (withSnapshot doc true newVersion) m (fun d m' => d = doc.set "parent_id" (.str (snapshotId x p)) ∧
      VersionPut (snapshotDoc x p) (snapshotId x p) n.db m'.db) fun _ => True := by
    unfold withSnapshot docId
    rw [Bool.true_and, hcut.1, hid]
    refine runs_bind (runs_pure (runs_bind (runs_bind (runs_get (runs_pure ?_)))))
    dsimp only
    rw [hm, hp]
    dsimp only
    rw [hcut.2]
    refine runs_bind ?_
    unfold snapshotPrior
    dsimp only
    rw [hsome, if_neg (by simp), if_neg hne]
    refine runs_read ?_
    rw [hm, hfree]
    refine runs_bind ((quiet_versionFor _ true m).imp ?_)
    intro v m₁ h₁
    refine runs_bind ((writeRow_tables _ v.1 v.2 m₁).imp ?_)
    intro _ m₂ h₂
    refine runs_pure (runs_pure ⟨rfl, ?_⟩)
    rw [← hm]
    exact (h₂.version (snapshotDoc_named x p).1).of_sameTables h₁.tables
  refine runs_bind (hsnap.imp ?_)
  rintro _ m₁ ⟨rfl, hs⟩
  have hid' : (doc.set "parent_id" (.str (snapshotId x p))).get "id" = .str x := by
    rw [Doc.get_set_of_ne _ _ (by decide), hid]
  exact (authored_writes hid' m₁).imp fun _ m' h => ⟨m₁.db, hs, h.1⟩

/-! ### Writes in place -/

def getArtifact (db : Store) (id : String) : Option Doc := (db.vertex.lookup id).map fun r => r.doc.val

/-- A call of `put_artifact` with `stamp_rev=True`. -/
structure Write where
  doc : Doc
  newVersion : Bool

structure Writes where
  node : Node
  done : List Write

def Writes.step (s : Writes) (w : Write) : Writes :=
  match putArtifact w.doc true w.newVersion s.node with
  | .ok _ n' => ⟨n', w :: s.done⟩
  | .error _ n' => ⟨n', s.done⟩

def Write.Replaces (w v : Write) : Prop := w.newVersion = true ∨ w.doc.get "content_ref" ≠ v.doc.get "content_ref"

def snapshotKeys : List String := "id" :: "root_id" :: "state" :: "parent_id" :: stampKeys

/-- A written document is stored beside the id, under an id of its own, as an archived version of the root. -/
def ArchivedAs (db : Store) (x root : String) (v : Write) (y : String) : Prop :=
  y ≠ x ∧ ∃ q, db.vertex.lookup y = some q ∧ q.rootId = .str root ∧ q.doc.val.get "root_id" = .str root ∧
    q.doc.val.get "state" = .str stateArchived ∧ HoldsBut snapshotKeys v.doc q.doc.val

def VersionsKept (db : Store) (x root : String) : List Write → Prop
  | w :: v :: rest => (w.Replaces v → ∃ y, ArchivedAs db x root v y) ∧ VersionsKept db x root (v :: rest)
  | _ => True

def TextRef (doc : Doc) : Prop := doc.get "content_ref" = .none ∨ ∃ t, doc.get "content_ref" = .str t

/-- Where the write changes the content, both contents have a reference or it asks for a version; and the id of the
snapshot it cuts is free. -/
structure Write.Clear (x root : String) (s : Writes) (w : Write) : Prop where
  id : w.doc.get "id" = .str x
  ref : TextRef w.doc
  rooted : s.node.db.vertex.lookup x = none →
    root ≠ "" ∧ bindText ((w.doc.get "root_id").orElse (w.doc.get "id")) = .ok (.str root)
  referred : ∀ p, s.node.db.vertex.lookup x = some p → w.doc.get "content_ref" ≠ p.doc.val.get "content_ref" →
    w.newVersion = true ∨
      (p.doc.val.get "content_ref").truthy = true ∧ (w.doc.get "content_ref").truthy = true
  free : ∀ p, s.node.db.vertex.lookup x = some p → cuts p w.doc w.newVersion = true →
    s.node.db.vertex.lookup (snapshotId x p) = none

structure LastWrite (db : Store) (x root : String) (w : Write) (before : Option Write) (r : VRow) : Prop where
  id : w.doc.get "id" = .str x
  ref : TextRef w.doc
  rooted : r.rootId = .str root
  column : r.contentRef = w.doc.get "content_ref"
  holds : HoldsBut ("parent_id" :: stampKeys) w.doc r.doc.val
  plain : (∀ v, before = some v → ¬w.Replaces v) → HoldsBut stampKeys w.doc r.doc.val
  parent : ∀ v, before = some v → w.Replaces v →
    ∃ y, r.doc.val.get "parent_id" = .str y ∧ ArchivedAs db x root v y

/-- The store after some writes of the id. -/
structure Line (x root : String) (s : Writes) : Prop where
  idle : s.node.inTxn = false
  others : ∀ y q, s.node.db.vertex.lookup y = some q → q.rootId = .str root →
    y = x ∨ q.doc.val.get "state" = .str stateArchived
  start : s.done = [] → s.node.db.vertex.lookup x = none
  last : ∀ w rest, s.done = w :: rest → ∃ r, s.node.db.vertex.lookup x = some r ∧
    LastWrite s.node.db x root w rest.head? r
  kept : VersionsKept s.node.db x root s.done
  named : s.done ≠ [] → root ≠ ""

variable {v : Write}

section InPlace

variable {x root : String} {s : Writes} {w : Write} {db db' : Store}

theorem TextRef.bind (h : TextRef doc) {c : Val} (hc : bindText (doc.get "content_ref") = .ok c) :
    c = doc.get "content_ref" := by
  rcases h with h | ⟨t, h⟩ <;> rw [h] at hc ⊢ <;> cases hc <;> rfl

theorem TextRef.same (hd : TextRef d) (h : HoldsBut ks d e) (hk : "content_ref" ∉ ks) :
    e.get "content_ref" = d.get "content_ref" := by
  rcases hd with hd | ⟨t, hd⟩
  · have hn := h _ hk
    rw [hd] at hn ⊢
    cases he : e.get "content_ref" <;> rw [he] at hn <;> simp_all [Val.norm]
  · rw [hd]
    exact h.str hk hd

theorem snapshotId_ne_self (x : String) (p : VRow) : snapshotId x p ≠ x := by
  intro h
  have hlen := congrArg String.length h
  unfold snapshotId at hlen
  have hat : "@".length = 1 := rfl
  simp only [String.length_append, hat] at hlen
  omega

theorem ArchivedAs.frame (h : ArchivedAs db x root v y)
    (hs : ∀ q, y ≠ x → db.vertex.lookup y = some q → db'.vertex.lookup y = some q) : ArchivedAs db' x root v y := by
  obtain ⟨hne, q, hq, hrest⟩ := h
  exact ⟨hne, q, hs q hne hq, hrest⟩

theorem VersionsKept.frame : ∀ {ws : List Write}, VersionsKept db x root ws →
    (∀ y q, y ≠ x → db.vertex.lookup y = some q → db'.vertex.lookup y = some q) → VersionsKept db' x root ws
  | [], _, _ => trivial
  | [_], _, _ => trivial
  | _ :: _ :: _, h, hs =>
    ⟨fun hr => (h.1 hr).imp fun y hy => hy.frame (hs y), VersionsKept.frame h.2 hs⟩

theorem cuts_iff_replaces (hv : TextRef v.doc) (hw : TextRef w.doc) (hcol : p.contentRef = v.doc.get "content_ref")
    (hdiff : w.doc.get "content_ref" ≠ v.doc.get "content_ref" → w.newVersion = true ∨
      (v.doc.get "content_ref").truthy = true ∧ (w.doc.get "content_ref").truthy = true) :
    cuts p w.doc w.newVersion = true ↔ w.Replaces v := by
  unfold cuts Write.Replaces
  rw [hcol]
  by_cases hnew : w.newVersion = true
  · simp [hnew]
  · rw [Bool.not_eq_true] at hnew
    rw [hnew] at hdiff ⊢
    by_cases hsame : w.doc.get "content_ref" = v.doc.get "content_ref"
    · have heq : (v.doc.get "content_ref").eqCol (v.doc.get "content_ref") = true := by
        rcases hv with hv | ⟨t, hv⟩ <;> rw [hv] <;> simp [Val.eqCol]
      simp [hsame, heq]
    · obtain ⟨hpv, hpw⟩ := (hdiff hsame).resolve_left Bool.false_ne_true
      have hne : (v.doc.get "content_ref").eqCol (w.doc.get "content_ref") = false := by
        rcases hv with hv | ⟨t, hv⟩ <;> rcases hw with hw | ⟨u, hw⟩ <;> rw [hv, hw] at hsame ⊢ <;>
          simp_all [Val.eqCol]
        exact fun h => hsame h.symm
      simp [hpv, hpw, hsame, hne]

theorem Line.found (h : Line x root s) (hp : s.node.db.vertex.lookup x = some p) :
    ∃ v rest, s.done = v :: rest ∧ LastWrite s.node.db x root v rest.head? p := by
  cases hd : s.done with
  | nil =>
    rw [h.start hd] at hp
    cases hp
  | cons v rest =>
    obtain ⟨r, hr, hlast⟩ := h.last v rest hd
    rw [hp] at hr
    cases hr
    exact ⟨v, rest, rfl, hlast⟩

theorem Line.undone (h : Line x root s) (hdb : n'.db = s.node.db) (hidle : n'.inTxn = false) :
    Line x root ⟨n', s.done⟩ where
  idle := hidle
  others := hdb ▸ h.others
  start := hdb ▸ h.start
  last := hdb ▸ h.last
  kept := hdb ▸ h.kept
  named := h.named

theorem Line.others_put
    (h : ∀ y q, db.vertex.lookup y = some q → q.rootId = .str root →
      y = x ∨ q.doc.val.get "state" = .str stateArchived) (hput : VersionPut d x db db') (y : String) (q : VRow)
    (hq : db'.vertex.lookup y = some q) (hroot : q.rootId = .str root) :
    y = x ∨ q.doc.val.get "state" = .str stateArchived := by
  by_cases hy : y = x
  · exact .inl hy
  · rw [hput.frame hy] at hq
    exact h y q hq hroot

theorem Line.first (h : Line x root s) (hc : Write.Clear x root s w) (hnone : s.node.db.vertex.lookup x = none)
    (hput : VersionPut w.doc x s.node.db n'.db) (hidle : n'.inTxn = false) : Line x root ⟨n', w :: s.done⟩ := by
  have hnew : s.done = [] := by
    cases hd : s.done with
    | nil => rfl
    | cons v rest =>
      obtain ⟨r, hr, -⟩ := h.last v rest hd
      rw [hnone] at hr
      cases hr
  have hothers := Line.others_put h.others hput
  obtain ⟨r, hr, hv⟩ := hput
  rw [hnone] at hr
  have hroot : r.rootId = .str root := Except.ok.inj ((hr.fresh rfl).symm.trans (hc.rooted hnone).2)
  rw [hnew]
  refine ⟨hidle, hothers, fun hd => absurd hd (by simp), ?_, trivial, ?_⟩
  · rintro w' rest hd
    cases hd
    refine ⟨r, by rw [hv, AList.lookup_insert], ⟨hc.id, hc.ref, hroot, hc.ref.bind hr.ref,
      hr.holds.mono fun k hk => List.mem_cons_of_mem _ hk, fun _ => hr.holds, fun v hv => by cases hv⟩⟩
  · exact fun _ => (hc.rooted hnone).1

theorem Line.again (h : Line x root s) (hc : Write.Clear x root s w) {rest : List Write} (hdone : s.done = v :: rest)
    (hp : s.node.db.vertex.lookup x = some p) (hold : p.rootId = .str root) (hsame : ¬w.Replaces v)
    (hput : VersionPut w.doc x s.node.db n'.db) (hidle : n'.inTxn = false) :
    Line x root ⟨n', w :: s.done⟩ := by
  have hothers := Line.others_put h.others hput
  have hkept : VersionsKept n'.db x root (w :: v :: rest) :=
    ⟨fun hr => absurd hr hsame, hdone ▸ h.kept.frame fun y q hy hq => by rw [hput.frame hy, hq]⟩
  obtain ⟨r, hr, hv⟩ := hput
  rw [hp] at hr
  refine ⟨hidle, hothers, fun hd => absurd hd (by simp), ?_, hdone ▸ hkept, fun _ => h.named (by rw [hdone]; simp)⟩
  rintro w' rest' hd
  cases hd
  rw [hdone]
  refine ⟨r, by rw [hv, AList.lookup_insert], ⟨hc.id, hc.ref, (hr.root p rfl).trans hold, hc.ref.bind hr.ref,
    hr.holds.mono fun k hk => List.mem_cons_of_mem _ hk, fun _ => hr.holds, ?_⟩⟩
  rintro u hu hrep
  cases hu
  exact absurd hrep hsame

theorem LastWrite.archived {before : Option Write} (hlast : LastWrite db x root v before p) (hroot : root ≠ "")
    (hfree : db.vertex.lookup (snapshotId x p) = none) (hput : VersionPut (snapshotDoc x p) (snapshotId x p) db db') :
    ArchivedAs db' x root v (snapshotId x p) := by
  obtain ⟨hid, hrt, hst⟩ := snapshotDoc_named x p
  have hor : p.rootId.orElse (.str x) = .str root := by
    rw [hlast.rooted]
    simp [Val.orElse, Val.truthy, hroot]
  obtain ⟨q, hq, hv⟩ := hput
  rw [hfree] at hq
  have hqroot := hq.fresh rfl
  rw [hrt, hor, show (Val.str root).orElse ((snapshotDoc x p).get "id") = .str root by
    simp [Val.orElse, Val.truthy, hroot]] at hqroot
  refine ⟨snapshotId_ne_self x p, q, by rw [hv, AList.lookup_insert], (Except.ok.inj hqroot).symm,
    hq.holds.str (by decide) (hrt.trans hor), hq.holds.str (by decide) hst, ?_⟩
  have hsnap : HoldsBut snapshotKeys p.doc.val (snapshotDoc x p) := by
    intro k hk
    simp only [snapshotKeys, List.mem_cons, not_or] at hk
    rw [snapshotDoc_get hk.1 hk.2.1 hk.2.2.1]
  exact ((hlast.holds.mono (by decide)).trans hsnap).trans (hq.holds.mono (by decide))

theorem Line.cut (h : Line x root s) (hc : Write.Clear x root s w) {rest : List Write} (hdone : s.done = v :: rest)
    (hrep : w.Replaces v) (hp : s.node.db.vertex.lookup x = some p) (hlast : LastWrite s.node.db x root v rest.head? p)
    (hfree : s.node.db.vertex.lookup (snapshotId x p) = none) {m : Store}
    (hsnap : VersionPut (snapshotDoc x p) (snapshotId x p) s.node.db m)
    (hput : VersionPut (w.doc.set "parent_id" (.str (snapshotId x p))) x m n'.db) (hidle : n'.inTxn = false) :
    Line x root ⟨n', w :: s.done⟩ := by
  have hroot := h.named (by rw [hdone]; simp)
  have hne := snapshotId_ne_self x p
  have hmx : m.vertex.lookup x = some p := by rw [hsnap.frame hne.symm, hp]
  have harch : ArchivedAs n'.db x root v (snapshotId x p) :=
    (hlast.archived hroot hfree hsnap).frame fun q hy hq => by rw [hput.frame hy, hq]
  have hkeeps : ∀ y q, y ≠ x → s.node.db.vertex.lookup y = some q → n'.db.vertex.lookup y = some q := by
    intro y q hy hq
    have hys : y ≠ snapshotId x p := by
      rintro rfl
      rw [hfree] at hq
      cases hq
    rw [hput.frame hy, hsnap.frame hys, hq]
  have hothers : ∀ y q, n'.db.vertex.lookup y = some q → q.rootId = .str root →
      y = x ∨ q.doc.val.get "state" = .str stateArchived := by
    refine Line.others_put (fun y q hq hqroot => ?_) hput
    by_cases hy : y = snapshotId x p
    · obtain ⟨-, q', hq', -, -, hst, -⟩ := hlast.archived hroot hfree hsnap
      rw [hy, hq'] at hq
      cases hq
      exact .inr hst
    · rw [hsnap.frame hy] at hq
      exact h.others y q hq hqroot
  have hkept : VersionsKept n'.db x root (w :: v :: rest) :=
    ⟨fun _ => ⟨_, harch⟩, hdone ▸ h.kept.frame hkeeps⟩
  obtain ⟨r, hr, hv⟩ := hput
  rw [hmx] at hr
  have href : (w.doc.set "parent_id" (.str (snapshotId x p))).get "content_ref" = w.doc.get "content_ref" :=
    Doc.get_set_of_ne _ _ (by decide)
  refine ⟨hidle, hothers, fun hd => absurd hd (by simp), ?_, hdone ▸ hkept, fun _ => hroot⟩
  rintro w' rest' hd
  cases hd
  rw [hdone]
  refine ⟨r, by rw [hv, AList.lookup_insert], ⟨hc.id, hc.ref, (hr.root p rfl).trans hlast.rooted,
    hc.ref.bind (href ▸ hr.ref), ?_, ?_, ?_⟩⟩
  · exact (HoldsBut.set _ (List.mem_cons_self ..)).trans (hr.holds.mono fun k hk => List.mem_cons_of_mem _ hk)
  · exact fun hno => absurd hrep (hno v rfl)
  · rintro u hu -
    cases hu
    exact ⟨_, hr.holds.str (by decide) (Doc.get_set_self ..), harch⟩

theorem Line.step (h : Line x root s) (hc : Write.Clear x root s w) : Line x root (s.step w) := by
  have hruns : Runs (putArtifact w.doc true w.newVersion) s.node (fun _ n' => Line x root ⟨n', w :: s.done⟩)
      fun n' => Line x root ⟨n', s.done⟩ := by
    by_cases hx : x = ""
    · unfold putArtifact
      refine runs_ite (fun _ => runs_throw (h.undone rfl h.idle)) fun hid => absurd ?_ hid
      rw [hc.id, hx]
      rfl
    cases hp : s.node.db.vertex.lookup x with
    | none =>
      refine (putArtifact_plain hc.id h.idle fun p hp' => ?_).mono ?_ fun n' hn => h.undone hn.1 hn.2
      · rw [hp] at hp'
        cases hp'
      · exact fun _ n' hn => h.first hc hp hn.1.1 hn.2
    | some p =>
      obtain ⟨v, rest, hdone, hlast⟩ := h.found hp
      have href : p.doc.val.get "content_ref" = v.doc.get "content_ref" := hlast.ref.same hlast.holds (by decide)
      have hcut := cuts_iff_replaces hlast.ref hc.ref hlast.column (href ▸ hc.referred p hp)
      by_cases hrep : w.Replaces v
      · have hsome : p.doc.val.isEmpty = false := by
          have hid := hlast.holds.str (by decide) hlast.id
          cases hd : p.doc.val with
          | nil =>
            rw [hd] at hid
            cases hid
          | cons e d => rfl
        have hfree := hc.free p hp (hcut.mpr hrep)
        refine (putArtifact_cut hc.id h.idle hp (hcut.mpr hrep) hsome (snapshotId_ne_self x p) hfree).mono ?_
          fun n' hn => h.undone hn.1 hn.2
        rintro - n' ⟨⟨m, hsnap, hput⟩, hidle⟩
        exact h.cut hc hdone hrep hp hlast hfree hsnap hput hidle
      · refine (putArtifact_plain hc.id h.idle fun p' hp' => ?_).mono ?_ fun n' hn => h.undone hn.1 hn.2
        · rw [hp] at hp'
          cases hp'
          exact Bool.eq_false_iff.mpr fun hct => hrep (hcut.mp hct)
        · exact fun _ n' hn => h.again hc hdone hp hlast.rooted hrep hn.1.1 hn.2
  unfold Writes.step
  cases hr : putArtifact w.doc true w.newVersion s.node with
  | ok d n' => exact hruns.ok hr
  | error e n' => exact hruns.error hr

theorem Line.head (h : Line x root s) {before : Option Write} {r : VRow} (hr : s.node.db.vertex.lookup x = some r)
    (hlast : LastWrite s.node.db x root w before r) (hlive : stateOf r.doc.val ≠ stateArchived) :
    headOf s.node.db root = some r.doc.val := by
  refine headOf_eq hlast.rooted hr hlive fun y q hq hqroot hqlive => ?_
  rcases h.others y q hq hqroot with rfl | hst
  · rw [hr] at hq
    cases hq
    rfl
  · refine absurd ?_ hqlive
    unfold stateOf
    rw [hst]
    decide

end InPlace

/-- **No content is lost by an in-place write**, with or without a new version. -/
theorem writes_keep_versions {n : Node} {x root : String} {writes : List Write} (hidle : n.inTxn = false)
    (hnone : n.db.vertex.lookup x = none) (hroot : ∀ y q, n.db.vertex.lookup y = some q → q.rootId = .str root →
      q.doc.val.get "state" = .str stateArchived)
    (hclear : Along Writes.step (Write.Clear x root) ⟨n, []⟩ writes) {s : Writes}
    (hs : writes.foldl Writes.step ⟨n, []⟩ = s) :
    VersionsKept s.node.db x root s.done ∧ ∀ w rest, s.done = w :: rest →
      ∃ d, getArtifact s.node.db x = some d ∧ HoldsBut ("parent_id" :: stampKeys) w.doc d ∧
        ((∀ v, rest.head? = some v → ¬w.Replaces v) → HoldsBut stampKeys w.doc d) ∧
        (∀ v, rest.head? = some v → w.Replaces v →
          ∃ y, d.get "parent_id" = .str y ∧ ArchivedAs s.node.db x root v y) ∧
        (stateOf d ≠ stateArchived → headOf s.node.db root = some d) := by
  have hstart : Line x root ⟨n, []⟩ :=
    ⟨hidle, fun y q hq hqroot => .inr (hroot y q hq hqroot), fun _ => hnone, (fun _ _ hd => nomatch hd), trivial,
      fun hd => absurd rfl hd⟩
  have hline : Line x root s := by
    rw [← hs]
    exact along_inv (fun _ _ h hc => h.step hc) writes _ hstart hclear
  refine ⟨hline.kept, fun w rest hdone => ?_⟩
  obtain ⟨r, hr, hlast⟩ := hline.last w rest hdone
  refine ⟨r.doc.val, ?_, hlast.holds, hlast.plain, hlast.parent, hline.head hr hlast⟩
  unfold getArtifact
  rw [hr]
  rfl

/-- A document, with or without content. -/
def draft (content : Option String) : Write :=
  ⟨("id", .str "x") :: (content.map fun c => ("content_ref", .str c)).toList, false⟩

def draftNode : Node := hereNode

def drafts (contents : List (Option String)) : Writes := (contents.map draft).foldl Writes.step ⟨draftNode, []⟩

theorem drafts_lose_content : ¬ ∀ (n : Node) (x root : String) (writes : List Write), n.inTxn = false →
    n.db.vertex.lookup x = none → (∀ y q, n.db.vertex.lookup y = some q → q.rootId = .str root →
      q.doc.val.get "state" = .str stateArchived) →
    (∀ w ∈ writes, w.doc.get "id" = .str x ∧ TextRef w.doc ∧ root ≠ "" ∧
      bindText ((w.doc.get "root_id").orElse (w.doc.get "id")) = .ok (.str root)) →
    VersionsKept (writes.foldl Writes.step ⟨n, []⟩).node.db x root (writes.foldl Writes.step ⟨n, []⟩).done := by
  intro h
  have hkept : VersionsKept (drafts [some "cas/a", none]).node.db "x" "x" (drafts [some "cas/a", none]).done := by
    have hdrafts := h draftNode "x" "x" ([some "cas/a", none].map draft) rfl rfl (fun y q hq _ => by cases hq)
    unfold drafts
    refine hdrafts fun w hw => ?_
    obtain ⟨content, -, rfl⟩ := List.mem_map.mp hw
    cases content with
    | none => exact ⟨rfl, .inl rfl, by decide, rfl⟩
    | some c => exact ⟨rfl, .inr ⟨c, rfl⟩, by decide, rfl⟩
  have hlen : (drafts [some "cas/a", none]).done.length = 2 := by decide +kernel
  have hrefs : ((drafts [some "cas/a", none]).done.map fun w => ((w.doc.get "content_ref").asStr)) =
      [none, some "cas/a"] := by decide +kernel
  have hkeys : (drafts [some "cas/a", none]).node.db.vertex.keys = ["x"] := by decide +kernel
  generalize drafts [some "cas/a", none] = s at hkept hlen hrefs hkeys
  match hd : s.done, hlen with
  | [w, v], _ =>
    rw [hd] at hkept hrefs
    simp only [List.map_cons, List.map_nil, List.cons.injEq, and_true] at hrefs
    obtain ⟨y, hy, q, hq, -⟩ := hkept.1 (.inr fun heq => by simp [heq, hrefs.2] at hrefs)
    have hmem : y ∈ s.node.db.vertex.keys := AList.mem_keys.mp (AList.lookup_isSome.mp (by rw [hq]; rfl))
    rw [hkeys, List.mem_singleton] at hmem
    exact hy hmem

theorem draft_clear {s : Writes} {c : String} (hc : c ≠ "")
    (href : ((s.node.db.vertex.lookup "x").all fun p => (p.doc.val.get "content_ref").truthy) = true)
    (hfree : ((s.node.db.vertex.lookup "x").all fun p => (s.node.db.vertex.lookup (snapshotId "x" p)).isNone) = true) :
    Write.Clear "x" "x" s (draft (some c)) where
  id := rfl
  ref := .inr ⟨c, rfl⟩
  rooted _ := ⟨by decide, rfl⟩
  referred p hp _ := by
    rw [hp] at href
    refine .inr ⟨href, ?_⟩
    simpa [draft, Doc.get, Doc.find?, Val.truthy] using hc
  free p hp _ := by
    rw [hp] at hfree
    exact Option.isNone_iff_eq_none.mp hfree

theorem writes_keep_versions_drafts :
    VersionsKept (drafts [some "cas/a", some "cas/b", some "cas/a"]).node.db "x" "x"
      (drafts [some "cas/a", some "cas/b", some "cas/a"]).done :=
  (@writes_keep_versions draftNode "x" "x" ([some "cas/a", some "cas/b", some "cas/a"].map draft) rfl rfl
    (fun y q hq _ => by cases hq)
    ⟨draft_clear (by decide) rfl rfl, draft_clear (by decide) (by decide +kernel) (by decide +kernel),
      draft_clear (by decide) (by decide +kernel) (by decide +kernel), trivial⟩
    (drafts [some "cas/a", some "cas/b", some "cas/a"]) rfl).1

/-! ### Revising -/

def placeKeys : List String := ["id", "parent_id", "_origin", "_seq", "_leaf", "_rev"]

/-- The new version, before its id. -/
def revisedDoc (prev changes : Doc) (root : Val) (id : String) (author : Option String) : Doc :=
  let doc := (((prev.update changes).set "root_id" root).set "parent_id" (.str id)).set "state" (.str stateLive)
  match author with
  | some a => if a ≠ "" then doc.set "created_by" (.str a) else doc
  | none => doc

def versionId (root : Val) (doc : Doc) : Except PyErr String :=
  ((doc.without (· ∈ placeKeys)).dumps .canonical).map fun body =>
    root.pyStr ++ "~" ++ hexOfBytes (Blake2b.hash 8 (utf8 body))

def stateRefused (state : Val) : PyErr :=
  .valueError ("revise() does not accept `state` (" ++ state.repr ++ "): it is RESERVED. `state` is lineage "
    ++ "position and revise() sets it — the new version is the live head. Accepting "
    ++ "a caller-supplied `state` here would let a revision to 'revoked' be silently "
    ++ "overwritten by the forced 'live', reinstating access that had been revoked. "
    ++ "Set lifecycle on a field of your own, or archive via put_artifact().")

def archivedRefused (id : String) (rootHint : Val) : PyErr :=
  .valueError ("cannot revise " ++ reprStr id ++ ": it is ARCHIVED. Revising an archived version forks the "
    ++ "lineage into two live heads on one root_id, and nothing downstream can tell "
    ++ "which is current. Resolve the head first: head_of(" ++ rootHint.repr ++ ").")

def rootOf (id : String) (p : VRow) : Val := (p.doc.val.get "root_id").orElse (p.rootId.orElse (.str id))

/-- `doc.pop("id"); doc["id"] = vid`. -/
def withId (doc : Doc) (vid : String) : Doc := (doc.without (· = "id")).set "id" (.str vid)

def putVersion (doc prev : Doc) : DbM Doc := do
  let stored ← putArtifact doc true false
  let _ ← putArtifact (prev.set "state" (.str stateArchived)) true false
  pure (doc.set "parent_id" (stored.get "parent_id"))

def revise (id : String) (changes : Doc) (author : Option String) : DbM Doc := do
  match changes.find? "state" with
  | some state => throw (stateRefused state)
  | none =>
    let n ← get
    match n.db.vertex.lookup id with
    | none => throw (.keyError ("cannot revise " ++ reprStr id ++ ": no such artifact"))
    | some p =>
      if (p.doc.val.get "state").eqStr stateArchived then
        throw (archivedRefused id ((p.doc.val.get "root_id").orElse (.str id)))
      else do
        let doc := revisedDoc p.doc.val changes (rootOf id p) id author
        let vid ← Tx.ofExcept (versionId (rootOf id p) doc)
        if vid = id then pure p.doc.val
        else putVersion (withId doc vid) p.doc.val

/-- A call of `revise` on the current head. -/
structure Revision where
  changes : Doc
  author : Option String

/-- The node, and what the calls returned, the last first. -/
structure Revised where
  node : Node
  returned : List Doc

def Revised.step (root : String) (s : Revised) (r : Revision) : Revised :=
  match headOf s.node.db root with
  | none => s
  | some d =>
    match revise (d.get "id").pyStr r.changes r.author s.node with
    | .ok doc n' => ⟨n', doc :: s.returned⟩
    | .error _ n' => ⟨n', s.returned⟩

/-- The ids `parent_id` leads through, `k` of them at most. -/
def parentsFrom (db : Store) : ℕ → String → List String
  | 0, _ => []
  | k + 1, id =>
    match db.vertex.lookup id with
    | none => []
    | some r =>
      match r.doc.val.get "parent_id" with
      | .str p => id :: (if p = "" then [] else parentsFrom db k p)
      | _ => [id]

/-- The versions of a line name each the next, and the last none. -/
def ParentLine (db : Store) : List String → Prop
  | [] => True
  | [y] => ∃ q, db.vertex.lookup y = some q ∧ (q.doc.val.get "parent_id").truthy = false
  | y :: z :: rest =>
    (∃ q, db.vertex.lookup y = some q ∧ q.doc.val.get "parent_id" = .str z) ∧ ParentLine db (z :: rest)

/-- The version that is not archived. -/
structure LiveHead (db : Store) (root x : String) (r : VRow) : Prop where
  row : db.vertex.lookup x = some r
  rooted : r.rootId = .str root
  named : r.doc.val.get "id" = .str x
  under : rootOf x r = .str root
  live : stateOf r.doc.val ≠ stateArchived
  ref : TextRef r.doc.val
  column : r.contentRef = r.doc.val.get "content_ref"
  only : ∀ y q, db.vertex.lookup y = some q → q.rootId = .str root → stateOf q.doc.val ≠ stateArchived → y = x

/-- **A lineage**: its versions from the head back to the first. -/
structure Lineage (db : Store) (root x : String) (older : List String) : Prop where
  rooted : root ≠ ""
  nodup : (x :: older).Nodup
  named : "" ∉ x :: older
  stored : ∀ y ∈ x :: older, ∃ q, db.vertex.lookup y = some q ∧ q.rootId = .str root
  parents : ParentLine db (x :: older)
  head : ∃ r, LiveHead db root x r

/-- The new content has a reference or none; the version id is the head's own, or free; and archiving the head does not
raise. -/
structure Revision.Clear (root : String) (s : Revised) (r : Revision) : Prop where
  ref : ∀ x p, LiveHead s.node.db root x p → TextRef (p.doc.val.update r.changes)
  free : ∀ x p vid, LiveHead s.node.db root x p →
    versionId (.str root) (revisedDoc p.doc.val r.changes (.str root) x r.author) = .ok vid →
      vid = x ∨ s.node.db.vertex.lookup vid = none
  archives : ∀ x p vid, LiveHead s.node.db root x p →
    versionId (.str root) (revisedDoc p.doc.val r.changes (.str root) x r.author) = .ok vid → ∀ d n',
      putArtifact (withId (revisedDoc p.doc.val r.changes (.str root) x r.author) vid) true false s.node = .ok d n' →
        ∃ d' n'', putArtifact (p.doc.val.set "state" (.str stateArchived)) true false n' = .ok d' n''

variable {s : Revised}

section Revising

variable {db db' : Store} {root x : String} {older : List String} {n : Node}

/-- The rows stand, but for where they are in the lineage. -/
def Carried (db db' : Store) : Prop :=
  ∀ y q, db.vertex.lookup y = some q → ∃ q', db'.vertex.lookup y = some q' ∧ q'.rootId = q.rootId ∧
    HoldsBut ("state" :: stampKeys) q.doc.val q'.doc.val

theorem Carried.refl (db : Store) : Carried db db := fun _ q hq => ⟨q, hq, rfl, .refl _ _⟩

theorem Carried.trans (h : Carried a b) (h' : Carried b c) : Carried a c := by
  intro y q hq
  obtain ⟨q₁, hq₁, hr₁, hs₁⟩ := h y q hq
  obtain ⟨q₂, hq₂, hr₂, hs₂⟩ := h' y q₁ hq₁
  exact ⟨q₂, hq₂, hr₂.trans hr₁, hs₁.trans hs₂⟩

theorem ParentLine.carried (hc : Carried db db') : ∀ {line : List String}, ParentLine db line → ParentLine db' line
  | [], _ => trivial
  | [y], h => by
    obtain ⟨q, hq, hp⟩ := h
    obtain ⟨q', hq', -, hs⟩ := hc y q hq
    exact ⟨q', hq', by rw [← Val.truthy_norm, hs _ (by decide), Val.truthy_norm, hp]⟩
  | y :: z :: rest, h => by
    obtain ⟨⟨q, hq, hp⟩, hrest⟩ := h
    obtain ⟨q', hq', -, hs⟩ := hc y q hq
    exact ⟨⟨q', hq', hs.str (by decide) hp⟩, ParentLine.carried hc hrest⟩

theorem ParentLine.walk : ∀ {older : List String} {x : String}, ParentLine db (x :: older) → "" ∉ older →
    ∀ k, parentsFrom db k x = (x :: older).take k
  | _, _, _, _, 0 => rfl
  | [], x, h, _, k + 1 => by
    obtain ⟨q, hq, hp⟩ := h
    unfold parentsFrom
    rw [hq]
    dsimp only
    cases hv : q.doc.val.get "parent_id" with
    | str p =>
      rw [hv] at hp
      have hp : p = "" := by simpa [Val.truthy] using hp
      simp [hp]
    | _ => rw [List.take_succ_cons, List.take_nil]
  | z :: rest, x, h, hne, k + 1 => by
    obtain ⟨⟨q, hq, hp⟩, hrest⟩ := h
    rw [List.mem_cons, not_or] at hne
    unfold parentsFrom
    rw [hq]
    dsimp only
    rw [hp]
    dsimp only
    rw [if_neg fun h => hne.1 h.symm, ParentLine.walk hrest hne.2 k, List.take_succ_cons]

theorem LiveHead.headOf (h : LiveHead db root x r) : headOf db root = some r.doc.val := by
  refine headOf_eq h.rooted h.row h.live fun y q hq hroot hlive => ?_
  rw [h.only y q hq hroot hlive, h.row] at hq
  exact (Option.some.inj hq).symm

theorem LiveHead.unique {q : VRow} (h : LiveHead db root x r) (h' : LiveHead db root y q) :
    y = x ∧ q = r := by
  obtain rfl := h.only y q h'.row h'.rooted h'.live
  exact ⟨rfl, Option.some.inj (h'.row.symm.trans h.row)⟩

theorem stateOf_archived (h : d.get "state" = .str stateArchived) : stateOf d = stateArchived := by
  unfold stateOf
  rw [h]
  decide

theorem revisedDoc_get (prev changes : Doc) (root : Val) (id : String) (author : Option String) :
    (revisedDoc prev changes root id author).get "root_id" = root ∧
    (revisedDoc prev changes root id author).get "parent_id" = .str id ∧
    (revisedDoc prev changes root id author).get "state" = .str stateLive ∧
    ∀ k ∉ ["root_id", "parent_id", "state", "created_by"],
      (revisedDoc prev changes root id author).get k = (prev.update changes).get k := by
  have hbase : ∀ k, k ≠ "created_by" → (revisedDoc prev changes root id author).get k =
      ((((prev.update changes).set "root_id" root).set "parent_id" (.str id)).set "state" (.str stateLive)).get k := by
    intro k hk
    unfold revisedDoc
    cases author with
    | none => rfl
    | some a =>
      dsimp only
      split_ifs
      · exact Doc.get_set_of_ne _ _ hk
      · rfl
  refine ⟨?_, ?_, ?_, fun k hk => ?_⟩
  · rw [hbase _ (by decide), Doc.get_set_of_ne _ _ (by decide), Doc.get_set_of_ne _ _ (by decide), Doc.get_set_self]
  · rw [hbase _ (by decide), Doc.get_set_of_ne _ _ (by decide), Doc.get_set_self]
  · rw [hbase _ (by decide), Doc.get_set_self]
  · simp only [List.mem_cons, List.not_mem_nil, or_false, not_or] at hk
    rw [hbase _ hk.2.2.2, Doc.get_set_of_ne _ _ hk.2.2.1, Doc.get_set_of_ne _ _ hk.2.1, Doc.get_set_of_ne _ _ hk.1]

theorem withId_get (d : Doc) (vid : String) :
    (withId d vid).get "id" = .str vid ∧ ∀ k, k ≠ "id" → (withId d vid).get k = d.get k := by
  unfold withId
  refine ⟨Doc.get_set_self .., fun k hk => ?_⟩
  rw [Doc.get_set_of_ne _ _ hk]
  exact Doc.get_without d (decide_eq_false hk)

theorem versionId_ne {root : Val} (h : versionId root d = .ok vid) : vid ≠ "" := by
  obtain ⟨body, -, rfl⟩ := map_ok h
  intro he
  have := congrArg String.length he
  simp only [String.length_append, show "~".length = 1 from rfl, show "".length = 0 from rfl] at this
  omega

structure NewVersion (root x vid : String) (d : Doc) : Prop where
  id : d.get "id" = .str vid
  root : d.get "root_id" = .str root
  parent : d.get "parent_id" = .str x
  state : d.get "state" = .str stateLive
  ref : TextRef d

theorem Lineage.revised (h : Lineage db root x older) (hp : LiveHead db root x p) (hd : NewVersion root x vid d)
    (hvid : vid ≠ "") (hfree : db.vertex.lookup vid = none) {m : Store} (hput : VersionPut d vid db m)
    (hold : VersionPut (p.doc.val.set "state" (.str stateArchived)) x m db') :
    Lineage db' root vid (x :: older) ∧ Carried db db' ∧ ∃ r, LiveHead db' root vid r ∧ HoldsBut stampKeys d r.doc.val := by
  have hne : vid ≠ x := by
    rintro rfl
    rw [hp.row] at hfree
    cases hfree
  obtain ⟨r, hr, hrv⟩ := id hput
  obtain ⟨p', hp', hpv⟩ := id hold
  rw [hfree] at hr
  rw [hput.frame hne.symm, hp.row] at hp'
  have hx : db'.vertex.lookup x = some p' := by rw [hpv, AList.lookup_insert]
  have hv : db'.vertex.lookup vid = some r := by rw [hold.frame hne, hrv, AList.lookup_insert]
  have hother : ∀ y, y ≠ vid → y ≠ x → db'.vertex.lookup y = db.vertex.lookup y := by
    intro y hyv hyx
    rw [hold.frame hyx, hput.frame hyv]
  have harch : p'.doc.val.get "state" = .str stateArchived := hp'.holds.str (by decide) (Doc.get_set_self ..)
  have hcarried : Carried db db' := by
    intro y q hq
    by_cases hyx : y = x
    · rw [hyx, hp.row] at hq
      cases hq
      refine ⟨p', hyx ▸ hx, hp'.root p rfl, ?_⟩
      exact (HoldsBut.set _ (List.mem_cons_self ..)).trans (hp'.holds.mono fun k hk => List.mem_cons_of_mem _ hk)
    · have hyv : y ≠ vid := by
        rintro rfl
        rw [hfree] at hq
        cases hq
      exact ⟨q, by rw [hother y hyv hyx, hq], rfl, .refl _ _⟩
  have hroot : r.rootId = .str root := by
    have := hr.fresh rfl
    rw [hd.root, show (Val.str root).orElse (d.get "id") = .str root by
      simp [Val.orElse, Val.truthy, h.rooted]] at this
    exact (Except.ok.inj this).symm
  have hlive : LiveHead db' root vid r := by
    refine ⟨hv, hroot, hr.holds.str (by decide) hd.id, ?_, ?_, ?_, ?_, fun y q hq hqroot hqlive => ?_⟩
    · unfold rootOf
      rw [hr.holds.str (by decide) hd.root]
      simp [Val.orElse, Val.truthy, h.rooted]
    · unfold stateOf
      rw [hr.holds.str (by decide) hd.state]
      decide
    · have hsame := hd.ref.same hr.holds (by decide)
      unfold TextRef
      rw [hsame]
      exact hd.ref
    · rw [hd.ref.bind hr.ref, hd.ref.same hr.holds (by decide)]
    · by_contra hyv
      by_cases hyx : y = x
      · rw [hyx, hx] at hq
        cases hq
        exact hqlive (stateOf_archived harch)
      · rw [hother y hyv hyx] at hq
        exact hyx (hp.only y q hq hqroot hqlive)
  have hnew : vid ∉ x :: older := by
    intro hmem
    obtain ⟨q, hq, -⟩ := h.stored vid hmem
    rw [hfree] at hq
    cases hq
  refine ⟨⟨h.rooted, List.nodup_cons.mpr ⟨hnew, h.nodup⟩, ?_, ?_, ?_, r, hlive⟩, hcarried, r, hlive, hr.holds⟩
  · rw [List.mem_cons, not_or]
    exact ⟨hvid.symm, h.named⟩
  · intro y hy
    rcases List.mem_cons.mp hy with rfl | hy
    · exact ⟨r, hv, hroot⟩
    · obtain ⟨q, hq, hqroot⟩ := h.stored y hy
      obtain ⟨q', hq', hrt, -⟩ := hcarried y q hq
      exact ⟨q', hq', hrt.trans hqroot⟩
  · exact ⟨⟨r, hv, hr.holds.str (by decide) hd.parent⟩, h.parents.carried hcarried⟩

theorem putVersion_runs (h : Lineage n.db root x older) (hn : n.inTxn = false) (hp : LiveHead n.db root x p)
    (hd : NewVersion root x vid d) (hvid : vid ≠ "") (hfree : n.db.vertex.lookup vid = none)
    (harch : ∀ d' n', putArtifact d true false n = .ok d' n' →
      ∃ d'' n'', putArtifact (p.doc.val.set "state" (.str stateArchived)) true false n' = .ok d'' n'') :
    Runs (putVersion d p.doc.val) n
      (fun d' n' => n'.inTxn = false ∧ Lineage n'.db root vid (x :: older) ∧ Carried n.db n'.db ∧
        ∃ r, LiveHead n'.db root vid r ∧ HoldsBut stampKeys d' r.doc.val)
      fun n' => n'.db = n.db ∧ n'.inTxn = false := by
  have hself : Runs (putArtifact d true false) n (fun d' n' => putArtifact d true false n = .ok d' n')
      fun _ => True := by
    unfold Runs
    split
    · assumption
    · trivial
  have hnocut : ∀ q, n.db.vertex.lookup vid = some q → cuts q d false = false := by
    intro q hq
    rw [hfree] at hq
    cases hq
  have hfirst := putArtifact_plain hd.id hn hnocut
  unfold putVersion
  refine runs_bind ((hfirst.and hself).mono ?_ fun n' hn' => hn'.1)
  rintro stored m ⟨⟨⟨hput, hstored⟩, hm⟩, hok⟩
  have hne : x ≠ vid := by
    rintro rfl
    rw [hp.row] at hfree
    cases hfree
  have hid : (p.doc.val.set "state" (.str stateArchived)).get "id" = .str x := by
    rw [Doc.get_set_of_ne _ _ (by decide), hp.named]
  have hsame : ∀ q, m.db.vertex.lookup x = some q →
      cuts q (p.doc.val.set "state" (.str stateArchived)) false = false := by
    intro q hq
    rw [hput.frame hne, hp.row] at hq
    cases hq
    unfold cuts
    rw [Doc.get_set_of_ne _ _ (by decide), hp.column]
    rcases hp.ref with href | ⟨t, href⟩ <;> rw [href] <;> simp [Val.eqCol, Val.truthy]
  have hsecond := putArtifact_plain hid hm hsame
  obtain ⟨d'', n'', hruns⟩ := harch stored m hok
  have hdone : Runs (putArtifact (p.doc.val.set "state" (.str stateArchived)) true false) m (fun _ m' => m' = n'')
      fun _ => False := by
    unfold Runs
    rw [hruns]
  obtain ⟨⟨hold, -⟩, hidle⟩ := hsecond.ok hruns
  refine runs_bind (hdone.mono ?_ fun _ h => h.elim)
  rintro - _ rfl
  obtain ⟨hline, hcarried, r, hlive, hsame⟩ := h.revised hp hd hvid hfree hput hold
  refine runs_pure ⟨hidle, hline, hcarried, r, hlive, fun k hk => ?_⟩
  by_cases hpar : k = "parent_id"
  · rw [hpar, Doc.get_set_self, hsame _ (by decide), hstored _ (by decide)]
  · rw [Doc.get_set_of_ne _ _ hpar, hsame k hk]

/-- **One call keeps the lineage.** -/
theorem revise_runs (h : Lineage n.db root x older) (hn : n.inTxn = false) (hp : LiveHead n.db root x p)
    (hs : s.node = n) {r : Revision} (hc : r.Clear root s) :
    Runs (revise x r.changes r.author) n
      (fun d' n' => n'.inTxn = false ∧ Carried n.db n'.db ∧ ∃ y newer, Lineage n'.db root y newer ∧
        (y :: newer = x :: older ∨ newer = x :: older) ∧ ∃ q, LiveHead n'.db root y q ∧ HoldsBut stampKeys d' q.doc.val)
      fun n' => n'.db = n.db ∧ n'.inTxn = false := by
  subst hs
  unfold revise
  cases r.changes.find? "state" with
  | some state => exact runs_throw ⟨rfl, hn⟩
  | none =>
    refine runs_bind (runs_get ?_)
    dsimp only
    rw [hp.row]
    dsimp only
    refine runs_ite (fun _ => runs_throw ⟨rfl, hn⟩) fun _ => ?_
    rw [hp.under]
    refine runs_bind (runs_ofExcept (fun vid hvid => ?_) ⟨rfl, hn⟩)
    refine runs_ite (fun _ => runs_pure ?_) fun hne => ?_
    · exact ⟨hn, .refl _, x, older, h, .inl rfl, p, hp, .refl _ _⟩
    · obtain ⟨hroot, hparent, hstate, hrest⟩ :=
        revisedDoc_get p.doc.val r.changes (.str root) x r.author
      obtain ⟨hid, hget⟩ := withId_get (revisedDoc p.doc.val r.changes (.str root) x r.author) vid
      have hd : NewVersion root x vid (withId (revisedDoc p.doc.val r.changes (.str root) x r.author) vid) := by
        refine ⟨hid, (hget _ (by decide)).trans hroot, (hget _ (by decide)).trans hparent,
          (hget _ (by decide)).trans hstate, ?_⟩
        unfold TextRef
        rw [hget _ (by decide), hrest _ (by decide)]
        exact hc.ref x p hp
      have hfree := (hc.free x p vid hp hvid).resolve_left hne
      refine (putVersion_runs h hn hp hd (versionId_ne hvid) hfree (hc.archives x p vid hp hvid)).mono ?_
        fun _ h => h
      rintro d' n' ⟨hidle, hline, hcarried, hlive⟩
      exact ⟨hidle, hcarried, vid, x :: older, hline, .inr rfl, hlive⟩

end Revising

/-- What a run of revisions leaves: the node with its lineage, and every version that was returned stored in it. -/
structure RevisedLine (root first : String) (db : Store) (line : List String) (s : Revised) (x : String)
    (older : List String) : Prop where
  idle : s.node.inTxn = false
  whole : Lineage s.node.db root x older
  first : (x :: older).getLast? = some first
  kept : line <:+ x :: older
  carried : Carried db s.node.db
  returned : ∀ d ∈ s.returned, ∃ y ∈ x :: older, ∃ q, s.node.db.vertex.lookup y = some q ∧
    d.get "id" = .str y ∧ q.rootId = .str root ∧ HoldsBut ("state" :: stampKeys) d q.doc.val
  last : ∀ d rest, s.returned = d :: rest → ∃ q, LiveHead s.node.db root x q ∧ HoldsBut stampKeys d q.doc.val

theorem RevisedLine.undone {first : String} {line older : List String} (h : RevisedLine root first db line s x older)
    (hdb : n'.db = s.node.db) (hidle : n'.inTxn = false) :
    RevisedLine root first db line ⟨n', s.returned⟩ x older where
  idle := hidle
  whole := hdb ▸ h.whole
  first := h.first
  kept := h.kept
  carried := hdb ▸ h.carried
  returned := hdb ▸ h.returned
  last := hdb ▸ h.last

theorem RevisedLine.step {first : String} {line older : List String} (h : RevisedLine root first db line s x older)
    {r : Revision} (hc : r.Clear root s) :
    ∃ y newer, RevisedLine root first db line (s.step root r) y newer := by
  obtain ⟨p, hp⟩ := h.whole.head
  have hruns := revise_runs h.whole h.idle hp rfl hc
  have hid : (p.doc.val.get "id").pyStr = x := by
    rw [hp.named]
    rfl
  unfold Revised.step
  rw [hp.headOf]
  dsimp only
  rw [hid]
  cases hr : revise x r.changes r.author s.node with
  | error e n' =>
    obtain ⟨hdb, hidle⟩ := hruns.error hr
    exact ⟨x, older, h.undone hdb hidle⟩
  | ok d n' =>
    obtain ⟨hidle, hcarried, y, newer, hline, hgrows, q, hq, hsame⟩ := hruns.ok hr
    have hsub : x :: older <:+ y :: newer := by
      rcases hgrows with he | rfl
      · rw [he]
      · exact List.suffix_cons ..
    refine ⟨y, newer, hidle, hline, ?_, h.kept.trans hsub, h.carried.trans hcarried, ?_, ?_⟩
    · obtain ⟨front, hfront⟩ := hsub
      rw [← hfront, List.getLast?_append_of_ne_nil _ (List.cons_ne_nil _ _), h.first]
    · intro e he
      rcases List.mem_cons.mp he with rfl | he
      · exact ⟨y, List.mem_cons_self .., q, hq.row, hsame.symm.str (by decide) hq.named, hq.rooted,
          hsame.mono fun k hk => List.mem_cons_of_mem _ hk⟩
      · obtain ⟨z, hz, q', hq', hzid, hzroot, hzsame⟩ := h.returned e he
        obtain ⟨q'', hq'', hroot, hs⟩ := hcarried z q' hq'
        exact ⟨z, hsub.subset hz, q'', hq'', hzid, hroot.trans hzroot, hzsame.trans hs⟩
    · rintro e rest he
      cases he
      exact ⟨q, hq, hsame⟩

/-- **Revising keeps a lineage well formed.**  `parent_id` leads from the head through the versions to the first. -/
theorem revisions_keep_line {n : Node} {root x first : String} {older : List String} {revisions : List Revision}
    (hidle : n.inTxn = false) (hstart : Lineage n.db root x older) (hfirst : (x :: older).getLast? = some first)
    (hclear : Along (Revised.step root) (Revision.Clear root) ⟨n, []⟩ revisions) {s : Revised}
    (hs : revisions.foldl (Revised.step root) ⟨n, []⟩ = s) :
    ∃ y newer q, headOf s.node.db root = some q.doc.val ∧ LiveHead s.node.db root y q ∧
      (∀ d rest, s.returned = d :: rest → HoldsBut stampKeys d q.doc.val) ∧
      (∀ d ∈ s.returned, ∃ z ∈ y :: newer, ∃ q, s.node.db.vertex.lookup z = some q ∧ d.get "id" = .str z ∧
        q.rootId = .str root ∧ HoldsBut ("state" :: stampKeys) d q.doc.val) ∧
      Carried n.db s.node.db ∧ x :: older <:+ y :: newer ∧ (y :: newer).Nodup ∧ (y :: newer).getLast? = some first ∧
      ∀ k, parentsFrom s.node.db k y = (y :: newer).take k := by
  have hinit : ∃ y newer, RevisedLine root first n.db (x :: older) ⟨n, []⟩ y newer :=
    ⟨x, older, hidle, hstart, hfirst, List.suffix_rfl, .refl _, (fun d hd => nomatch hd), fun _ _ hd => nomatch hd⟩
  have hrun : ∃ y newer, RevisedLine root first n.db (x :: older) s y newer := by
    rw [← hs]
    exact along_inv (fun (s : Revised) r (h : ∃ y newer, RevisedLine root first n.db (x :: older) s y newer) hc =>
      h.elim fun _ h => h.elim fun _ h => h.step hc) revisions _ hinit hclear
  obtain ⟨y, newer, h⟩ := hrun
  obtain ⟨q, hq⟩ := h.whole.head
  refine ⟨y, newer, q, hq.headOf, hq, fun d rest hd => ?_, h.returned, h.carried, h.kept, h.whole.nodup,
    h.first, h.whole.parents.walk fun hmem => h.whole.named (List.mem_cons_of_mem _ hmem)⟩
  obtain ⟨q', hq', hsame⟩ := h.last d rest hd
  obtain ⟨-, rfl⟩ := hq.unique hq'
  exact hsame

def noteNode : Node :=
  match putArtifact [("id", .str "a"), ("content", .str "one")] true false draftNode with
  | .ok _ n => n
  | .error _ n => n

def noteRevised (contents : List String) : Revised :=
  (contents.map fun c => ⟨[("content", .str c)], none⟩).foldl (Revised.step "a") ⟨noteNode, []⟩

def standsAlone (x : String) (r : VRow) : Bool :=
  r.rootId.eqStr x && (r.doc.val.get "id").eqStr x && !(r.doc.val.get "root_id").truthy &&
    !(r.doc.val.get "parent_id").truthy && (r.doc.val.get "content_ref").isNone && r.contentRef.isNone &&
    decide (stateOf r.doc.val ≠ stateArchived)

theorem Lineage.alone (hx : x ≠ "") (hkeys : db.vertex.keys = [x])
    (h : ((db.vertex.lookup x).any (standsAlone x)) = true) : Lineage db x x [] := by
  obtain ⟨r, hr, h⟩ : ∃ r, db.vertex.lookup x = some r ∧ standsAlone x r = true := by
    cases hr : db.vertex.lookup x with
    | none =>
      rw [hr] at h
      cases h
    | some r => exact ⟨r, rfl, by rwa [hr] at h⟩
  unfold standsAlone at h
  simp only [Bool.and_eq_true, eqStr_iff, Bool.not_eq_true', decide_eq_true_eq] at h
  obtain ⟨⟨⟨⟨⟨⟨hroot, hid⟩, hnoroot⟩, hparent⟩, href⟩, hcol⟩, hlive⟩ := h
  have href : r.doc.val.get "content_ref" = .none := by
    cases hv : r.doc.val.get "content_ref" <;> rw [hv] at href <;> simp_all [Val.isNone]
  have hcol : r.contentRef = .none := by
    cases hv : r.contentRef <;> rw [hv] at hcol <;> simp_all [Val.isNone]
  refine ⟨hx, List.nodup_singleton x, ?_, ?_, ⟨r, hr, hparent⟩, r, hr, hroot, hid, ?_, hlive, .inl href,
    hcol.trans href.symm, fun y q hq _ _ => ?_⟩
  · simpa using hx.symm
  · rintro y hy
    rw [List.mem_singleton.mp hy]
    exact ⟨r, hr, hroot⟩
  · unfold rootOf Val.orElse
    rw [hnoroot, hroot]
    simp [Val.truthy, hx]
  · have hmem : y ∈ db.vertex.keys := AList.mem_keys.mp (AList.lookup_isSome.mp (by rw [hq]; rfl))
    rwa [hkeys, List.mem_singleton] at hmem

theorem noteNode_lineage : Lineage noteNode.db "a" "a" [] :=
  .alone (by decide) (by decide +kernel) (by decide +kernel)

theorem noteRevised_circles : ¬ ∀ (n : Node) (root x first : String) (older : List String) (revisions : List Revision),
    n.inTxn = false → Lineage n.db root x older → (x :: older).getLast? = some first →
    (∀ r ∈ revisions, r.changes.find? "state" = none ∧ r.changes.find? "content_ref" = none) →
    ∀ d, headOf (revisions.foldl (Revised.step root) ⟨n, []⟩).node.db root = some d → ∀ k,
      (parentsFrom (revisions.foldl (Revised.step root) ⟨n, []⟩).node.db k (d.get "id").pyStr).Nodup := by
  intro h
  have hcircle : (headOf (noteRevised ["two", "one", "two"]).node.db "a").map (fun d =>
      decide (parentsFrom (noteRevised ["two", "one", "two"]).node.db 3 (d.get "id").pyStr).Nodup) = some false := by
    decide +kernel
  obtain ⟨d, hd, hdup⟩ := Option.map_eq_some_iff.mp hcircle
  have hidle : noteNode.inTxn = false := by decide +kernel
  have hrun := h noteNode "a" "a" "a" [] (["two", "one", "two"].map fun c => ⟨[("content", .str c)], none⟩) hidle
    noteNode_lineage rfl
  unfold noteRevised at hd hdup
  refine absurd (hrun ?_ d hd 3) (of_decide_eq_false hdup)
  intro r hr
  obtain ⟨c, -, rfl⟩ := List.mem_map.mp hr
  exact ⟨rfl, rfl⟩

def clearCheck (root : String) (s : Revised) (r : Revision) (d : Doc) : Bool :=
  ((d.update r.changes).get "content_ref").isNone &&
  match versionId (.str root) (revisedDoc d r.changes (.str root) (d.get "id").pyStr r.author) with
  | .error _ => true
  | .ok vid =>
    (decide (vid = (d.get "id").pyStr) || (s.node.db.vertex.lookup vid).isNone) &&
    match putArtifact (withId (revisedDoc d r.changes (.str root) (d.get "id").pyStr r.author) vid) true false s.node with
    | .error _ _ => true
    | .ok _ n' =>
      match putArtifact (d.set "state" (.str stateArchived)) true false n' with
      | .ok _ _ => true
      | .error _ _ => false

theorem Revision.clear_of_check {r : Revision} (h : ((headOf s.node.db root).all (clearCheck root s r)) = true) :
    r.Clear root s := by
  have hat : ∀ x p, LiveHead s.node.db root x p → clearCheck root s r p.doc.val = true ∧
      (p.doc.val.get "id").pyStr = x := by
    intro x p hp
    rw [hp.headOf] at h
    exact ⟨h, by rw [hp.named]; rfl⟩
  refine ⟨fun x p hp => ?_, fun x p vid hp hvid => ?_, fun x p vid hp hvid d n' hput => ?_⟩
  all_goals
    obtain ⟨hcheck, hid⟩ := hat x p hp
    unfold clearCheck at hcheck
    rw [hid, Bool.and_eq_true] at hcheck
  · left
    cases hv : (p.doc.val.update r.changes).get "content_ref" <;> simp_all [Val.isNone]
  · rw [hvid] at hcheck
    simp only [Bool.and_eq_true, Bool.or_eq_true, decide_eq_true_eq, Option.isNone_iff_eq_none] at hcheck
    exact hcheck.2.1
  · rw [hvid] at hcheck
    simp only [Bool.and_eq_true] at hcheck
    have harch := hcheck.2.2
    rw [hput] at harch
    dsimp only at harch
    split at harch
    · exact ⟨_, _, by assumption⟩
    · cases harch

theorem revisions_keep_line_note : ∃ y newer q, headOf (noteRevised ["two", "one"]).node.db "a" = some q.doc.val ∧
    LiveHead (noteRevised ["two", "one"]).node.db "a" y q ∧ (y :: newer).Nodup ∧
    (y :: newer).getLast? = some "a" ∧
    ∀ k, parentsFrom (noteRevised ["two", "one"]).node.db k y = (y :: newer).take k := by
  have hidle : noteNode.inTxn = false := by decide +kernel
  have hclear : Along (Revised.step "a") (Revision.Clear "a") ⟨noteNode, []⟩
      (["two", "one"].map fun c => ⟨[("content", .str c)], none⟩) :=
    ⟨Revision.clear_of_check (by decide +kernel), Revision.clear_of_check (by decide +kernel), trivial⟩
  obtain ⟨y, newer, q, hhead, hlive, -, -, -, -, hnodup, hlast, hwalk⟩ :=
    revisions_keep_line hidle noteNode_lineage rfl hclear (s := noteRevised ["two", "one"]) rfl
  exact ⟨y, newer, q, hhead, hlive, hnodup, hlast, hwalk⟩

end Mantle
