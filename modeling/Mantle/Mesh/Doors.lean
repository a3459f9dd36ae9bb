import Mantle.Db.Atomic
import Mantle.Db.Stamp
import Mantle.Mesh.Federation
import Mantle.Mesh.Segment

/-!
# Mantle.Mesh.Doors — the two ways rows of a peer come in

`_apply_artifacts` refuses, declines and keeps the sender's versions; `pull_from_peers` hands the documents of a page
to `put_many` as this node's own.
-/

namespace Mantle

open Tx

variable {docs : List Doc}

/-- The node after `pull_from_peers` received a page, however the write ended. -/
def Node.pulled (n : Node) (docs : List Doc) : Node :=
  match storePage (docs.filter fun d => (d.get "id").truthy) n with
  | .ok _ n' => n'
  | .error _ n' => n'

def storedAt (db : Store) (x : String) : Option (Doc × String × ℤ) :=
  (db.vertex.lookup x).map fun r => (r.doc.val, r.origin, r.seq)

/-- The same documents are stored, with the same versions, beside the two rows an apply keeps for itself. -/
def DoorsAgree (float : String → Flt) (n : Node) (docs : List Doc) : Prop :=
  ∀ x ∉ opIds, storedAt (n.pulled docs).db x = storedAt (n.applied float docs []).db x

/-! ### What a pull stores -/

/-- Every row is one of another store, or this node's under a number beyond a bound. -/
def OwnBeyond (db₀ : Store) (me : String) (bound : ℤ) (db : Store) : Prop :=
  ∀ x r, db.vertex.lookup x = some r → db₀.vertex.lookup x = some r ∨ r.origin = me ∧ bound < r.seq

section Own

variable {db₀ : Store} {me : Origin} {bound : ℤ}

theorem ownBeyond_shrinks : Shrinks (OwnBeyond db₀ me.val bound) := fun _ _ hw h x r hr => h x r (hw.vertex x r hr)

theorem true_shrinks : Shrinks fun _ => True := fun _ _ _ _ => trivial

/-- The invariant of a node that writes its own rows, beyond the numbers it had handed out. -/
def ownWatch (L : ℕ+) (db₀ : Store) (me : Origin) (bound : ℤ) : Watch where
  inside n := (armedWatch L (fun _ => True) true_shrinks bound).inside n ∧ n.origin = me ∧ OwnBeyond db₀ me.val bound n.db
  outside n := (armedWatch L (fun _ => True) true_shrinks bound).outside n ∧ n.origin = me ∧ OwnBeyond db₀ me.val bound n.db
  opens := fun n h => ⟨(armedWatch L _ true_shrinks bound).opens n h.1, h.2⟩
  commits := fun m h hc => by
    refine ⟨(armedWatch L _ true_shrinks bound).commits m h.1 hc, ?_, ?_⟩
    · rw [← h.2.1]
      unfold Node.flushed
      split <;> rfl
    · exact ownBeyond_shrinks m.db _ (flushed_sameTables m).content.within h.2.2
  aborts := fun n m h he => ⟨(armedWatch L _ true_shrinks bound).aborts n m h.1 he, he.origin.trans h.2.1, h.2.2⟩
  undoes := fun n m h he => ⟨(armedWatch L _ true_shrinks bound).undoes n m h.1 he, he.origin.trans h.2.1, h.2.2⟩

variable {L : ℕ+} {n n' : Node} {doc : Doc}

theorem own_micro (h : (ownWatch L db₀ me bound).inside n) (hm : Micro authorAdm n n') :
    (ownWatch L db₀ me bound).inside n' := by
  obtain ⟨harmed, hme, hrows⟩ := h
  refine ⟨armed_micro (fun _ _ ho => ho) (fun _ _ _ _ _ => trivial) harmed hm, hm.sameEnv.origin.trans hme, ?_⟩
  have hissued := n.reached_le_issued
  cases hm with
  | retire hr => exact ownBeyond_shrinks _ _ (retires_within (Relation.ReflTransGen.single hr)).2.2 hrows
  | observe hA => exact hA.elim
  | task => exact hrows
  | patch hA => exact hA.elim
  | env => exact hrows
  | @authorVertex aid row _ ho hs =>
    intro x r hr
    dsimp only at hr
    rw [(Store.acceptVertex_tables n.db aid row (.int row.seq)).1, Table.lookup_insert_of] at hr
    split_ifs at hr
    · cases hr
      refine .inr ⟨ho.trans (congrArg Subtype.val hme), ?_⟩
      have := harmed.2
      omega
    · exact hrows x r hr
  | consumeVertex hA => exact hA.elim
  | authorEdge =>
    intro x r hr
    dsimp only at hr
    rw [(Store.acceptEdge_tables _ _ _ _ _).2] at hr
    exact hrows x r hr
  | consumeEdge hA => exact hA.elim
  | @drop n₁ aid r hr hret =>
    refine ownBeyond_shrinks _ _ ?_ hrows
    exact ((within_eraseVertex _ _).trans (retires_within hret).2.2).trans
      (settleVertex_frame n₁.db aid r true).2.content.within
  | @evict aid r hA hr =>
    refine ownBeyond_shrinks _ _ ?_ hrows
    exact (within_eraseVertex _ _).trans
      (settleVertex_frame (n.db.eraseVertex aid) aid r false).2.content.within

/-- A row of this node, under a number beyond the bound. -/
def OwnFresh (me : String) (bound : ℤ) (db : Store) : Prop :=
  ∃ x ∉ opIds, ∃ r, db.vertex.lookup x = some r ∧ r.origin = me ∧ bound < r.seq

theorem OwnFresh.of_vertex {a b : Store} (h : OwnFresh me.val bound a) (hv : b.vertex = a.vertex) :
    OwnFresh me.val bound b := by
  unfold OwnFresh
  rw [hv]
  exact h

/-- The same, once a document has been taken. -/
def freshWatch (L : ℕ+) (db₀ : Store) (me : Origin) (bound : ℤ) : Watch where
  inside n := (ownWatch L db₀ me bound).inside n ∧ OwnFresh me.val bound n.db
  outside n := (ownWatch L db₀ me bound).outside n ∧ OwnFresh me.val bound n.db
  opens := fun n h => ⟨(ownWatch L db₀ me bound).opens n h.1, h.2⟩
  commits := fun m h hc =>
    ⟨(ownWatch L db₀ me bound).commits m h.1 hc, h.2.of_vertex (flushed_sameTables m).vertex⟩
  aborts := fun n m h he => ⟨(ownWatch L db₀ me bound).aborts n m h.1 he, h.2⟩
  undoes := fun n m h he => ⟨(ownWatch L db₀ me bound).undoes n m h.1 he, h.2⟩

theorem putOne_fresh (hops : ∀ op ∈ opIds, doc.get "id" ≠ .str op) (h : (ownWatch L db₀ me bound).inside n) :
    Runs (putOne true .keepLocal doc) n
      (fun _ n' => (freshWatch L db₀ me bound).inside n' ∧ SameEnv n n') (SameEnv n) := by
  have hkeeps := bearsIn_inner (W := ownWatch L db₀ me bound) (fun _ _ => own_micro)
    (inner_putOne author_places ⟨author_docAdm doc, fun hf => (nomatch hf)⟩ .keepLocal n) h
  have hrow : Runs (putOne true .keepLocal doc) n (fun _ n' => OwnFresh me.val bound n'.db) fun _ => True := by
    refine runs_ite (fun _ => runs_throw trivial) fun _ => ?_
    refine runs_bind ((versionFor_author doc n _).imp ?_)
    rintro v n₁ ⟨rfl, rfl⟩
    refine (putWritten_tables doc _ _).imp ?_
    rintro - n' ⟨-, hw⟩
    obtain ⟨id, row, s, hid, hs, ho, hseq, -, hv⟩ := hw.vertex
    have hnum : n.issued + 1 = s := Option.some.inj hs
    have hle : bound ≤ n.reached := h.1.2
    have hissued := n.reached_le_issued
    refine ⟨id, fun hop => hops id hop hid, row, ?_, ?_, ?_⟩
    · rw [hv, Table.lookup_insert_of, if_pos rfl]
    · rw [ho]
      exact congrArg Subtype.val h.2.1
    · omega
  refine (hkeeps.and hrow).mono ?_ fun _ he => he.1
  rintro k n' ⟨⟨hin, he⟩, hfresh⟩
  exact ⟨⟨hin, hfresh⟩, he⟩

end Own

theorem chunked_first {α : Type} (batch : ℕ) : ∀ (xs acc : List α) (x : α),
    ∃ c cs, chunked batch acc (x :: xs) = (acc ++ x :: c) :: cs := by
  intro xs
  induction xs with
  | nil =>
    intro acc x
    refine ⟨[], [], ?_⟩
    unfold chunked
    dsimp only
    split_ifs <;> simp [chunked]
  | cons y ys ih =>
    intro acc x
    unfold chunked
    dsimp only
    split_ifs with hfull
    · exact ⟨[], _, rfl⟩
    · obtain ⟨c, cs, hc⟩ := ih (acc ++ [x]) y
      exact ⟨y :: c, cs, by rw [hc, List.append_assoc]; rfl⟩

theorem mem_chunkHandled {γ : Type} {one : γ → DbM ℕ} : ∀ {xs : List γ} {n : Node} {p : Node × γ},
    p ∈ chunkHandled one n xs → p.2 ∈ xs := by
  intro xs
  induction xs with
  | nil => exact fun hp => absurd hp List.not_mem_nil
  | cons x xs ih =>
    intro n p hp
    rcases List.mem_cons.mp hp with rfl | hp
    · exact List.mem_cons_self ..
    · exact List.mem_cons_of_mem _ (ih hp)

theorem mem_bulkHandled {γ : Type} {one : γ → DbM ℕ} : ∀ {chunks : List (List γ)} {n : Node} {p : Node × γ},
    p ∈ bulkHandled one n chunks → p.2 ∈ chunks.flatten := by
  intro chunks
  induction chunks with
  | nil => exact fun hp => absurd hp List.not_mem_nil
  | cons chunk chunks ih =>
    intro n p hp
    rw [bulkHandled, List.mem_append] at hp
    rw [List.flatten_cons, List.mem_append]
    rcases hp with hp | hp
    · exact .inl (mem_chunkHandled hp)
    · cases hw : write (bulkChunk one chunk) n with
      | ok k n' =>
        rw [hw] at hp
        exact .inr (ih hp)
      | error e n' =>
        rw [hw] at hp
        exact absurd hp List.not_mem_nil

theorem putOne_dirty (doc : Doc) (n : Node) :
    Runs (putOne true .keepLocal doc) n (fun _ n' => n'.dirty = true) fun _ => True := by
  refine runs_ite (fun _ => runs_throw trivial) fun _ => ?_
  refine runs_bind ((versionFor_author doc n _).imp ?_)
  rintro v n₁ ⟨rfl, rfl⟩
  refine runs_bind ((writeRow_runs (A := .any) (fun _ _ => edgeAdm_any _ _) _ _ _ _).mono ?_ fun _ _ => trivial)
  rintro - n₂ ⟨aid, s, row, -, -, -, hm⟩
  exact runs_pure ((micros_sameEnv hm).dirty rfl)

variable {n : Node}

/-- **What a pull takes is there afterwards**, as a row of this node. -/
theorem pulled_fresh (hidle : n.inTxn = false) {rest : List Doc} {d : Doc}
    (hnamed : (docs.filter fun d => (d.get "id").truthy) = d :: rest) {k : ℕ} {n₁ : Node}
    (htakes : putOne true .keepLocal d n.begin = .ok k n₁) (hops : ∀ e ∈ docs, ∀ op ∈ opIds, e.get "id" ≠ .str op) :
    OwnFresh n.origin (n.db.highWater n.origin) (n.pulled docs).db := by
  have hmem : ∀ e ∈ d :: rest, e ∈ docs := fun e he => List.mem_of_mem_filter (hnamed ▸ he)
  have hone : ∀ e ∈ d :: rest, ∀ m, BearsIn (freshWatch n.graphLeaves n.db n.origin (n.db.highWater n.origin))
      (putOne true .keepLocal e) m := fun e he m hin => putOne_fresh (hops e (hmem e he)) hin.1
  obtain ⟨c, cs, hchunks⟩ := chunked_first 100 rest [] d
  have hflat : (d :: c) ++ cs.flatten = d :: rest := by
    have := chunked_flatten 100 [] (d :: rest)
    rwa [hchunks] at this
  -- the first document is taken, and from there on the row stands
  have hstart : (ownWatch n.graphLeaves n.db n.origin (n.db.highWater n.origin)).inside n.begin :=
    (ownWatch n.graphLeaves n.db n.origin (n.db.highWater n.origin)).opens n
      ⟨⟨⟨rfl, trivial⟩, le_rfl⟩, rfl, fun _ _ hr => .inl hr⟩
  have hfirst := (putOne_fresh (hops d (hmem d (List.mem_cons_self ..))) hstart).ok htakes
  have hrest : ∀ p ∈ chunkHandled (putOne true .keepLocal) n₁ c, BearsIn
      (freshWatch n.graphLeaves n.db n.origin (n.db.highWater n.origin)) (putOne true .keepLocal p.2) p.1 := by
    intro p hp
    refine hone p.2 ?_ p.1
    rw [← hflat]
    exact List.mem_append_left _ (List.mem_cons_of_mem _ (mem_chunkHandled hp))
  have hbody : Runs (bulkChunk (putOne true .keepLocal) (d :: c)) n.begin
      (fun _ m => (freshWatch n.graphLeaves n.db n.origin (n.db.highWater n.origin)).inside m) fun _ => True := by
    have hitem : savepoint (putOne true .keepLocal d) n.begin = .ok k n₁ := by
      unfold savepoint attempt
      simp only [bind, EStateM.bind, htakes]
      rfl
    unfold bulkChunk
    rw [List.foldlM_cons, bind_assoc]
    refine runs_bind ?_
    unfold Runs
    rw [hitem]
    exact (bearsIn_chunk hrest hfirst.1).mono (fun _ _ h => h.1) fun _ _ => trivial
  -- so the first transaction commits
  have hstays : ¬Stranded (turns (putOne true .keepLocal) n.begin (d :: c)) := by
    have hturn : turn (putOne true .keepLocal) n.begin d = ⟨false, n₁.dirty⟩ := by
      have hclean : putOne true .keepLocal d { n.begin with dirty := false } = .ok k n₁ := htakes
      unfold turn
      rw [hclean]
    have htook : n₁.dirty = true := (putOne_dirty d n.begin).ok htakes
    rintro ⟨-, hraised⟩
    have := hraised _ (List.mem_cons_self ..)
    rw [hturn] at this
    exact absurd (this htook) (by simp)
  obtain ⟨m, hm, -⟩ := (chunk_write (putOne_itemwise true .keepLocal) (Alike.refl n) hidle (d :: c)).2 hstays
  have hwrite : Runs (write (bulkChunk (putOne true .keepLocal) (d :: c))) n
      (fun _ m => (freshWatch n.graphLeaves n.db n.origin (n.db.highWater n.origin)).outside m ∧ m.inTxn = false)
      fun _ => False := by
    have hb : Runs (do let a ← bulkChunk (putOne true .keepLocal) (d :: c); flush; pure a : DbM ℕ) n.begin
        (fun _ m => (freshWatch n.graphLeaves n.db n.origin (n.db.highWater n.origin)).outside m.end)
        fun _ => True := by
      refine runs_bind (hbody.imp ?_)
      intro a m hin
      refine runs_bind ((flush_runs m).mono ?_ fun _ _ => trivial)
      rintro - m' ⟨rfl, hc⟩
      exact runs_pure ((freshWatch n.graphLeaves n.db n.origin (n.db.highWater n.origin)).commits m hin hc)
    have hm' : write (bulkChunk (putOne true .keepLocal) (d :: c)) n = _ := hm
    unfold Runs
    rw [hm']
    rw [write_own hidle] at hm'
    cases hr : (do let a ← bulkChunk (putOne true .keepLocal) (d :: c); flush; pure a : DbM ℕ) n.begin with
    | error e n' =>
      rw [hr] at hm'
      cases hm'
    | ok a n' =>
      rw [hr] at hm'
      cases hm'
      exact ⟨hb.ok hr, rfl⟩
  have hall : Runs (putMany (d :: rest) 100 true .keepLocal) n
      (fun _ m => (freshWatch n.graphLeaves n.db n.origin (n.db.highWater n.origin)).outside m)
      fun m => (freshWatch n.graphLeaves n.db n.origin (n.db.highWater n.origin)).outside m := by
    unfold putMany bulk
    rw [hchunks, List.nil_append, List.foldlM_cons, bind_assoc]
    refine runs_bind (hwrite.mono ?_ fun _ hf => hf.elim)
    rintro j m' ⟨hout, hidle'⟩
    refine ((bears_chunks cs (0 + j) m' fun p hp => hone p.2 ?_ p.1).2 hidle' hout).mono (fun _ _ h => h.1) fun _ h => h.1
    rw [← hflat]
    exact List.mem_append_right _ (mem_bulkHandled hp)
  unfold Node.pulled
  rw [hnamed]
  change Runs (storePage (d :: rest)) n _ _ at hall
  cases hr : storePage (d :: rest) n with
  | ok k n' => exact (hall.ok hr).2
  | error e n' => exact (hall.error hr).2

/-! ### What an apply stores -/

/-- This node's rows, beside the two an apply keeps for itself, have numbers it has handed out. -/
def HandedOut (me : String) (bound : ℤ) (db : Store) : Prop :=
  ∀ x ∉ opIds, ∀ r, db.vertex.lookup x = some r → r.origin = me → r.seq ≤ bound

/-- No document claims a version of this node that it has not handed out. -/
def NoneForged (me : String) (bound : ℤ) (docs : List Doc) : Prop :=
  ∀ d ∈ docs, ∀ s, incomingVersion (d.get "_origin") (d.get "_seq") = some (me, s) → s ≤ bound

section Applied

variable {me id : String} {bound : ℤ} {a b : Store}

theorem HandedOut.of_vertex (h : HandedOut me bound a) (hv : b.vertex = a.vertex) : HandedOut me bound b := by
  unfold HandedOut
  rw [hv]
  exact h

theorem HandedOut.of_lookup (h : HandedOut me bound a) (hop : id ∈ opIds)
    (hl : ∀ x, x ≠ id → b.vertex.lookup x = a.vertex.lookup x) : HandedOut me bound b := by
  intro x hx r hr ho
  rw [hl x fun he => hx (he ▸ hop)] at hr
  exact h x hx r hr ho

theorem HandedOut.docHandled (h : HandedOut me bound a) {d : Doc} {node : String}
    (hforge : ∀ s, incomingVersion (d.get "_origin") (d.get "_seq") = some (me, s) → s ≤ bound)
    (hw : DocHandled node d a b) : HandedOut me bound b := by
  rcases hw with ⟨-, -, hs⟩ | ⟨-, origin, s, hv, hw⟩
  · exact h.of_vertex hs.vertex
  · obtain ⟨id, row, t, -, ht, ho, hseq, -, hins⟩ := hw.vertex
    have hst : s = t := Option.some.inj ((incomingVersion_asInt hv).2.symm.trans ht)
    intro x hx r hr hme
    rw [hins, Table.lookup_insert_of] at hr
    split_ifs at hr
    · -- the row that was written keeps the sender's version
      cases hr
      rw [hseq, ← hst]
      exact hforge s (by rw [hv, ← ho, hme])
    · exact h x hx r hr hme

/-- **What an apply stores as this node's.** -/
theorem applied_handedOut {float : String → Flt} (hidle : n.inTxn = false) (hown : HandedOut n.origin bound n.db)
    (hforge : NoneForged n.origin bound docs) :
    HandedOut n.origin bound (n.applied float docs []).db := by
  have hrules : ApplyRules (HandedOut n.origin bound) n.origin float docs :=
    { tables := fun a b hs h => h.of_vertex hs.vertex
      docs := by
        intro d hd d' hform a b hw h
        refine h.docHandled (fun s hv => hforge d (List.mem_of_mem_filter (List.mem_of_mem_filter hd)) s ?_) hw
        rw [storedForm_get hform (by decide) (by decide), storedForm_get hform (by decide) (by decide)] at hv
        exact hv
      queue := fun ids a b hw h => h.of_lookup (show consumedId ∈ opIds by decide) fun x hx =>
        OpApplied.lookup_of_ne (.inr ⟨_, _, _, (opShaped_consumedDoc a ids).pinned, hw.choose_spec.choose_spec⟩) hx
      links := fun arg a b hw h => h.of_vertex hw.vertex }
  refine (applied_keeps hrules (fun b hb h => ?_) [] hown hidle).1.holds
  exact h.of_lookup (show declinedId ∈ opIds by decide) fun x hx => hb.opApplied.lookup_of_ne hx

end Applied

theorem applied_unnamed {float : String → Flt} (h : ∀ d ∈ docs, (d.get "id").truthy = false) :
    n.applied float docs [] = n := by
  have hreplicated : replicatedItems docs = [] := List.filter_eq_nil_iff.mpr fun d hd => by simp [h d hd]
  have hnone : keptItems docs = [] := by
    unfold keptItems
    rw [hreplicated]
    rfl
  unfold Node.applied applySegment applyArtifacts
  rw [hnone]
  rfl

theorem pulled_unnamed (h : ∀ d ∈ docs, (d.get "id").truthy = false) :
    n.pulled docs = n := by
  unfold Node.pulled
  rw [List.filter_eq_nil_iff.mpr fun d hd => by simp [h d hd]]
  rfl

/-- **When the two doors agree**: not on a list of which the store takes a document of this node. -/
theorem doors_agree_iff (float : String → Flt) (n : Node) (docs : List Doc) (hidle : n.inTxn = false)
    (hown : HandedOut n.origin (n.db.highWater n.origin) n.db)
    (hforge : NoneForged n.origin (n.db.highWater n.origin) docs)
    (hops : ∀ d ∈ docs, ∀ op ∈ opIds, d.get "id" ≠ .str op)
    (htakes : ∀ d rest, (docs.filter fun d => (d.get "id").truthy) = d :: rest →
      ∃ k n', putOne true .keepLocal d n.begin = .ok k n') :
    DoorsAgree float n docs ↔ ∀ d ∈ docs, (d.get "id").truthy = false := by
  constructor
  · intro hagree
    cases hnamed : docs.filter fun d => (d.get "id").truthy with
    | nil =>
      intro d hd
      simpa using List.filter_eq_nil_iff.mp hnamed d hd
    | cons d rest =>
      exfalso
      obtain ⟨k, n₁, hput⟩ := htakes d rest hnamed
      obtain ⟨x, hx, r, hr, ho, hseq⟩ := pulled_fresh hidle hnamed hput hops
      have hsame := hagree x hx
      unfold storedAt at hsame
      rw [hr, Option.map_some, eq_comm, Option.map_eq_some_iff] at hsame
      obtain ⟨r', hr', heq⟩ := hsame
      have ho' : r'.origin = r.origin := congrArg (fun v => v.2.1) heq
      have hs' : r'.seq = r.seq := congrArg (fun v => v.2.2) heq
      have hle := applied_handedOut hidle hown hforge x hx r' hr' (ho'.trans ho)
      omega
  · intro hnone x _
    rw [pulled_unnamed hnone, applied_unnamed hnone]

def peerNote : Doc :=
  [("id", .str "p"), ("_origin", .str "peer"), ("_seq", .int 7), ("content_type", .str "text/plain")]

theorem peerNote_restamped : ¬ ∀ (float : String → Flt) (n : Node) (docs : List Doc), n.inTxn = false →
    HandedOut n.origin (n.db.highWater n.origin) n.db → DoorsAgree float n docs := by
  intro h
  have hagree := h litFloat (Node.fresh ⟨"here", by decide⟩ 4096) [peerNote] rfl (fun _ _ _ hr => nomatch hr) "p"
    (by decide)
  have hversions : ((storedAt ((Node.fresh ⟨"here", by decide⟩ 4096).pulled [peerNote]).db "p").map Prod.snd,
      (storedAt ((Node.fresh ⟨"here", by decide⟩ 4096).applied litFloat [peerNote] []).db "p").map Prod.snd) =
        (some ("here", 1), some ("peer", 7)) := by decide +kernel
  rw [hagree, Prod.mk.injEq] at hversions
  exact absurd (hversions.1.symm.trans hversions.2) (by decide)

theorem doors_agree_iff_peerNote : DoorsAgree litFloat (Node.fresh ⟨"here", by decide⟩ 4096) [peerNote] ↔
    ∀ d ∈ [peerNote], (d.get "id").truthy = false := by
  refine doors_agree_iff litFloat (Node.fresh ⟨"here", by decide⟩ 4096) [peerNote] rfl (fun _ _ _ hr => nomatch hr)
    ?_ ?_ ?_
  · intro d hd s hv
    obtain rfl := List.mem_singleton.mp hd
    have hpeer : incomingVersion (peerNote.get "_origin") (peerNote.get "_seq") = some ("peer", 7) := rfl
    have hme : "peer" = "here" := congrArg Prod.fst (Option.some.inj (hpeer.symm.trans hv))
    exact absurd hme (by decide)
  · intro d hd op hop he
    obtain rfl := List.mem_singleton.mp hd
    have hid : peerNote.get "id" = .str "p" := rfl
    obtain rfl := Val.str.inj (hid.symm.trans he)
    exact absurd hop (by decide)
  · intro d rest hd
    have hput : (match putOne true .keepLocal peerNote (Node.fresh ⟨"here", by decide⟩ 4096).begin with
        | .ok _ _ => true
        | .error _ _ => false) = true := by decide +kernel
    obtain ⟨rfl, -⟩ := List.cons.inj hd
    cases hr : putOne true .keepLocal peerNote (Node.fresh ⟨"here", by decide⟩ 4096).begin with
    | ok k n' => exact ⟨k, n', rfl⟩
    | error e n' =>
      rw [hr] at hput
      cases hput

end Mantle
