import Mantle.Db.RefineEdge

/-!
# Mantle.Db.RefineVertex — the artifact operations refine the ledger

`_write_row` accepts one row and then moves counters, a task row and the containment edge.
-/

namespace Mantle

open Tx Relation

variable {Q : String → Prop} {deltas : List (String × ℤ)} {new old : Option Doc} {newCt oldCt : Val}
  {prev : Option VRow} {row : VRow} {s : ℤ}

variable {aid name origin : String} {d doc : Doc} {delta seq : ℤ} {leaf : ℕ} {n : Node}
  {stampRev : Bool}

variable {A : Adm} {α β : Type}

/-! ### Counters and tasks -/

theorem micros_bumps :
    ∀ {n : Node}, (∀ e ∈ deltas, OffLedger e.1) →
      Micros A n { n with db := deltas.foldl (fun db e => db.bump e.1 e.2) n.db } := by
  induction deltas with
  | nil => exact fun _ => ReflTransGen.refl
  | cons e deltas ih =>
    intro n h
    have hm : Micro A n { n with db := n.db.bump e.1 e.2 } := .retire (.bump (h e (by simp)))
    exact ReflTransGen.head hm (ih (n := { n with db := n.db.bump e.1 e.2 })
      fun e' he' => h e' (by simp [he']))

theorem mem_addDelta {m : List (String × ℤ)} {e : String × ℤ} (h : e ∈ addDelta m name delta) :
    e.1 = name ∨ ∃ e' ∈ m, e'.1 = e.1 := by
  induction m with
  | nil =>
    simp only [addDelta, List.mem_singleton] at h
    exact .inl (by rw [h])
  | cons a m ih =>
    obtain ⟨k, v⟩ := a
    unfold addDelta at h
    split_ifs at h with hk
    · rcases List.mem_cons.mp h with rfl | h'
      · exact .inl hk
      · exact .inr ⟨e, by simp [h'], rfl⟩
    · rcases List.mem_cons.mp h with rfl | h'
      · exact .inr ⟨(k, v), by simp, rfl⟩
      · rcases ih h' with h'' | ⟨e', he', heq⟩
        · exact .inl h''
        · exact .inr ⟨e', by simp [he'], heq⟩

theorem offLedger_countedNames {ct : Val} (h : name ∈ countedNames doc ct) : OffLedger name := by
  unfold countedNames at h
  simp only [List.mem_append, List.mem_flatMap] at h
  rcases h with ((h | h) | h) | ⟨f, -, h⟩
  · split_ifs at h
    · rw [List.mem_singleton] at h
      exact h ▸ offLedger_ct _
    · simp at h
  · split_ifs at h
    · rw [List.mem_singleton] at h
      exact h ▸ offLedger_state _
    · simp at h
  · split_ifs at h
    · rcases List.mem_cons.mp h with rfl | h
      · exact offLedger_collection _ _
      · rw [List.mem_singleton] at h
        exact h ▸ offLedger_collection _ _
    · rw [List.mem_singleton] at h
      exact h ▸ offLedger_collection _ _
    · simp at h
  · split_ifs at h
    · rcases List.mem_cons.mp h with rfl | h
      · exact offLedger_missing _ _
      · rw [List.mem_singleton] at h
        exact h ▸ offLedger_missing _ _
    · rw [List.mem_singleton] at h
      exact h ▸ offLedger_missing _ _
    · simp at h

theorem forall_foldl_addDelta {Q : String → Prop} {delta : ℤ} :
    ∀ {names : List String} {acc : List (String × ℤ)}, (∀ e ∈ acc, Q e.1) → (∀ name ∈ names, Q name) →
      ∀ e ∈ names.foldl (fun acc name => addDelta acc name delta) acc, Q e.1
  | [], _, hacc, _ => hacc
  | name :: names, acc, hacc, hn => by
    refine @forall_foldl_addDelta Q _ names _ ?_ fun x hx => hn x (by simp [hx])
    intro e he
    rcases mem_addDelta he with h | ⟨e', he', heq⟩
    · rw [h]
      exact hn name (by simp)
    · rw [← heq]
      exact hacc e' he'

theorem forall_counterDeltas (hQ : ∀ d ct, ∀ name ∈ countedNames d ct, Q name) :
    ∀ e ∈ counterDeltas old new oldCt newCt, Q e.1 := by
  intro e he
  refine forall_foldl_addDelta (forall_foldl_addDelta (by simp) ?_) ?_ e (List.mem_of_mem_filter he)
  · cases old with
    | none => simp
    | some d => exact hQ d oldCt
  · cases new with
    | none => simp
    | some d => exact hQ d newCt

theorem offLedger_counterDeltas :
    ∀ e ∈ counterDeltas old new oldCt newCt, OffLedger e.1 :=
  forall_counterDeltas fun _ _ _ h => offLedger_countedNames h

theorem inner_bumpAll (h : ∀ e ∈ deltas, OffLedger e.1) :
    Inner A (bumpAll deltas) n := micros_bumps h

theorem inner_bump (h : OffLedger name) :
    Inner A (onDb fun db => db.bump name delta) n := inner_onDb (.retire (.bump h))

theorem inner_recount (old : Option Doc) (new : Doc) (oldCt newCt : Val) (n : Node) :
    Inner A (recount old new oldCt newCt) n := by
  refine inner_bind ?_ fun _ _ _ => inner_bumpAll offLedger_counterDeltas
  exact inner_ite (fun _ => inner_bump offLedger_vertexTotal) fun _ => inner_pure _ n

theorem inner_syncTask (aid : String) (old new : Option Doc) (ct : Val) (n : Node) :
    Inner A (syncTask aid old new ct) n := by
  refine inner_bind ?_ fun _ n' _ => ?_
  · unfold uncountTask
    split
    · exact inner_bump (offLedger_taskStatus _ _)
    · exact inner_pure _ n
  · unfold storeTask
    split
    · refine inner_ite ?_ fun _ => inner_onDb .task
      intro _
      refine inner_bind (inner_bump (offLedger_taskStatus _ _)) fun _ n'' _ => ?_
      exact inner_ofExcept fun row _ => inner_onDb .task
    · exact inner_onDb .task

/-! ### The vertex write path -/

theorem vertexRow_binds (h : vertexRow d origin seq leaf = .ok row) :
    bindText (d.get "content_type") = .ok row.ct ∧ bindText (d.get "content_ref") = .ok row.contentRef ∧
      bindText (d.get "created_by") = .ok row.createdBy ∧
      bindText ((d.get "root_id").orElse (d.get "id")) = .ok row.rootId ∧ bindInt seq = .ok seq ∧
      row.origin = origin ∧ row.seq = seq ∧ row.leaf = leaf ∧ row.doc.val = d.norm := by
  obtain ⟨ct, hct, h⟩ := bind_ok h
  obtain ⟨contentRef, href, h⟩ := bind_ok h
  obtain ⟨createdBy, hby, h⟩ := bind_ok h
  obtain ⟨rootId, hroot, h⟩ := bind_ok h
  obtain ⟨s, hs, h⟩ := bind_ok h
  obtain ⟨doc, hdoc, h⟩ := bind_ok h
  cases h
  obtain rfl := bindInt_ok hs
  exact ⟨hct, href, hby, hroot, hs, rfl, rfl, rfl, Doc.toCol_ok hdoc⟩

theorem vertexRow_ok (h : vertexRow d origin seq leaf = .ok row) :
    row.origin = origin ∧ row.seq = seq ∧ row.leaf = leaf ∧ row.doc.val = d.norm :=
  (vertexRow_binds h).2.2.2.2.2

theorem vertexRow_ct (h : vertexRow d origin seq leaf = .ok row) :
    bindText (d.get "content_type") = .ok row.ct :=
  (vertexRow_binds h).1

theorem upsertVertex_fields (prev : Option VRow) (row : VRow) :
    (upsertVertex prev row).origin = row.origin ∧ (upsertVertex prev row).seq = row.seq ∧
      (upsertVertex prev row).leaf = row.leaf ∧ (upsertVertex prev row).doc = row.doc := by
  cases prev <;> exact ⟨rfl, rfl, rfl, rfl⟩

/-- The keys `_write_row` sets on a document. -/
def stampKeys : List String := ["_origin", "_seq", "created_time", timeClaimKey]

theorem stampedDoc_get {seq : Val} {k : String} (hk : k ∉ stampKeys) :
    (stampedDoc doc origin seq prev).get k = doc.get k := by
  simp only [stampKeys, List.mem_cons, List.not_mem_nil, or_false, not_or] at hk
  obtain ⟨h1, h2, h3, h4⟩ := hk
  have hbase : ((doc.set "_origin" (.str origin)).set "_seq" seq).get k = doc.get k := by
    rw [Doc.get_set_of_ne _ _ h2, Doc.get_set_of_ne _ _ h1]
  have hattr : ∀ d : Doc, (attributeTime d origin).get k = d.get k := by
    intro d
    unfold attributeTime
    split_ifs
    · rfl
    · rfl
    · exact Doc.get_set_of_ne _ _ h4
  have hkeep : ∀ d : Doc, (keepTime d prev).get k = d.get k := by
    intro d
    unfold keepTime
    cases prev with
    | none => rfl
    | some p =>
      simp only
      split_ifs
      · rfl
      · exact Doc.get_set_of_ne _ _ h3
      · rw [Doc.get_set_of_ne _ _ h4, Doc.get_set_of_ne _ _ h3]
  unfold stampedDoc
  rw [hkeep, hattr, hbase]

theorem writeVertex_runs {seq : Val} {m : Node} (hprev : m.db.vertex.lookup aid = prev) :
    Runs (writeVertex aid leaf d prev origin seq) m
      (fun _ m' => ∃ s row, seq.asInt = some s ∧ vertexRow d origin s leaf = .ok row ∧
        m' = { m with db := m.db.acceptVertex aid (upsertVertex prev row) seq }) (SameEnv m) := by
  unfold writeVertex
  refine runs_bind (runs_ofExcept ?_ (SameEnv.refl m))
  intro s hs
  have hs' : seq.asInt = some s := by
    cases hc : seq.asInt with
    | none =>
      rw [hc] at hs
      cases hs
    | some s' =>
      rw [hc] at hs
      cases hs
      rfl
  refine runs_bind (runs_ofExcept ?_ (SameEnv.refl m))
  intro row hrow
  obtain ⟨ho, -, hl, -⟩ := vertexRow_ok hrow
  obtain ⟨hu, -, hu', -⟩ := upsertVertex_fields prev row
  refine runs_bind (runs_modify ?_)
  cases prev with
  | none =>
    refine runs_bind (runs_modify (runs_modify ⟨s, row, hs', hrow, ?_⟩))
    simp only [Store.acceptVertex, hprev, hu, hu', ho, hl]
  | some p =>
    refine runs_bind (runs_modify (runs_bind (runs_modify (runs_bind (runs_modify
      (runs_modify ⟨s, row, hs', hrow, ?_⟩))))))
    simp only [Store.acceptVertex, hprev, hu, hu', ho, hl]

theorem inner_modify {f : Node → Node} {g : PUnit → DbM β} (hm : Micro A n (f n))
    (h : Inner A (g ⟨⟩) (f n)) : Inner A (modify f >>= g) n := by
  refine runs_bind (runs_modify (h.mono ?_ ?_))
  · intro b n' hm'
    exact ReflTransGen.head hm hm'
  · intro n' he
    exact hm.sameEnv.trans he

def Adm.Places (A : Adm) : Prop :=
  ∀ cid aid, EdgeAdm A true (.tuple (.str cid) (.str aid) (.str "contains") (placeProps aid))

theorem inner_place (hA : A.Places) (doc : Doc) (n : Node) : Inner A (place doc) n := by
  unfold place
  cases placement doc with
  | none => exact inner_pure _ n
  | some p =>
    obtain ⟨cid, aid⟩ := p
    refine inner_get ?_
    cases n.db.vertex.lookup cid with
    | none => exact ReflTransGen.single (Micro.env (n := n) (.inl rfl) id)
    | some r =>
      -- the face is built here if it was not, with the artifact store's leaf count
      have hf : some (n.face.getD n.leaves) = n.face ∨
          n.face = none ∧ some (n.face.getD n.leaves) = some n.leaves := by
        cases n.face with
        | none => exact .inr ⟨rfl, rfl⟩
        | some l => exact .inl rfl
      have hm : Micro A n { n with face := some (n.face.getD n.leaves) } :=
        Micro.env (n := n) hf id
      refine inner_modify hm (inner_bind (inner_addOne (hA cid aid) ?_ (.inr (.inr rfl)))
        fun _ n' _ => inner_pure _ n')
      intro h
      cases h

theorem inner_followRow (hA : A.Places) (aid : String) (prev : Option VRow) (d : Doc) (n : Node) :
    Inner A (followRow aid prev d) n := by
  refine inner_bind (inner_recount _ _ _ _ n) fun _ n₁ _ => ?_
  refine inner_bind (inner_syncTask _ _ _ _ n₁) fun _ n₂ _ => ?_
  exact inner_bind (inner_place hA d n₂) fun _ n₃ _ => inner_pure d n₃

/-- **`_write_row`** accepts the row, and what follows are changes of the ledger. -/
theorem writeRow_runs (hA : A.Places) (doc : Doc) (origin : String) (seq : Val) (m : Node) :
    Runs (writeRow doc origin seq) m
      (fun _ m' => ∃ aid s row, docId doc = .ok aid ∧ seq.asInt = some s ∧
        vertexRow (stampedDoc doc origin seq (m.db.vertex.lookup aid)) origin s
          (leafOf aid m.leaves) = .ok row ∧
        Micros A { m with
          db := m.db.acceptVertex aid (upsertVertex (m.db.vertex.lookup aid) row) seq } m')
      (SameEnv m) := by
  unfold writeRow
  refine runs_bind (runs_ofExcept ?_ (SameEnv.refl m))
  intro aid haid
  refine runs_bind (runs_get (runs_bind ((writeVertex_runs rfl).mono ?_ fun _ he => he)))
  rintro - m₁ ⟨s, row, hs, hrow, rfl⟩
  refine (inner_followRow hA aid (m.db.vertex.lookup aid) _ _).mono ?_ ?_
  · intro d m' hm
    exact ⟨aid, s, row, haid, hs, hrow, hm⟩
  · intro m' he
    exact (SameEnv.db m _).trans he

/-- What a document must bring, so that the row it becomes is admitted. -/
def DocAdm (A : Adm) (stampRev : Bool) (doc : Doc) : Prop :=
  ∀ aid, docId doc = .ok aid → ∀ origin seq s leaf prev row,
    vertexRow (stampedDoc doc origin seq prev) origin s leaf = .ok row →
    (stampRev = true → seq = .int s → A.authoredVertex aid (upsertVertex prev row)) ∧
    (stampRev = false → seq = doc.get "_seq" →
      incomingVersion (doc.get "_origin") (doc.get "_seq") = some (origin, s) →
      A.consumedVertex aid (upsertVertex prev row) seq)

/-- What a consumed document must bring, so that its version may be observed. -/
def DocObserved (A : Adm) (doc : Doc) : Prop :=
  ∀ origin s, incomingVersion (doc.get "_origin") (doc.get "_seq") = some (origin, s) →
    A.observed origin s

theorem incomingVersion_asInt {o s : Val} (h : incomingVersion o s = some (origin, seq)) :
    o = .str origin ∧ s.asInt = some seq := by
  unfold incomingVersion at h
  split at h
  · rename_i o' s' ho hs
    split_ifs at h
    cases h
    refine ⟨?_, hs⟩
    cases o with
    | str x =>
      cases ho
      rfl
    | _ => cases ho
  · cases h

theorem versionFor_author (doc : Doc) (n : Node) (E : Node → Prop) :
    Runs (versionFor doc true) n (fun v n' => v = (n.origin.val, .int (n.issued + 1)) ∧
      n' = { n with cache := some (n.issued + 1), dirty := true }) E := ⟨rfl, rfl⟩

theorem inner_author (doc' : Doc) (hA : A.Places) (ha : DocAdm A true doc) :
    Inner A (do
      let v ← versionFor doc' true
      writeRow doc v.1 v.2 : DbM Doc) n := by
  refine runs_bind ((versionFor_author doc' n (SameEnv n)).imp ?_)
  rintro v n₁ ⟨rfl, rfl⟩
  refine (writeRow_runs hA _ _ _ _).mono ?_ fun m hm => (SameEnv.alloc n _).trans hm
  rintro - m ⟨aid, s, row, haid, hs, hrow, hm⟩
  obtain ⟨ho, hrs, hl, -⟩ := vertexRow_ok hrow
  obtain ⟨hu, hus, hul, -⟩ := upsertVertex_fields (n.db.vertex.lookup aid) row
  have hs : s = n.issued + 1 := (Option.some.inj hs).symm
  subst hs
  have hfirst := @Micro.authorVertex A n aid _
    ((ha aid haid _ _ _ _ _ row hrow).1 rfl rfl) (hu.trans ho) (hus.trans hrs) (hul.trans hl)
  rw [hus, hrs] at hfirst
  exact ReflTransGen.head hfirst hm

theorem inner_consume (hA : A.Places) (ha : DocAdm A false doc)
    (hv : incomingVersion (doc.get "_origin") (doc.get "_seq") = some (origin, s))
    (hseq : ∃ r, n.db.seqCounter.lookup origin = some r ∧ s ≤ r.lastSeq) :
    Inner A (writeRow doc origin (doc.get "_seq")) n := by
  refine (writeRow_runs hA _ _ _ _).mono ?_ fun m hm => hm
  rintro - m ⟨aid, s', row, haid, hs, hrow, hm⟩
  obtain ⟨ho, hrs, hl, -⟩ := vertexRow_ok hrow
  obtain ⟨hu, hus, hul, -⟩ := upsertVertex_fields (n.db.vertex.lookup aid) row
  have heq : s = s' := by
    have := (incomingVersion_asInt hv).2
    rw [hs] at this
    exact (Option.some.inj this).symm
  subst heq
  refine ReflTransGen.head (Micro.consumeVertex
    ((ha aid haid _ _ _ _ _ row hrow).2 rfl rfl hv) ?_ ?_ (hul.trans hl)) hm
  · rw [hus, hrs]
    exact hs
  · rw [hu, ho, hus, hrs]
    exact hseq

/-! ### Putting -/

def Adm.Snapshots (A : Adm) : Prop :=
  ∀ aid row, row.doc.val.get "state" = .str stateArchived → A.authoredVertex aid row

theorem docAdm_snapshot (hA : A.Snapshots) (h : doc.get "state" = .str stateArchived) :
    DocAdm A true doc := by
  intro aid _ origin seq s leaf prev row hrow
  refine ⟨fun _ _ => hA _ _ ?_, fun h => by cases h⟩
  obtain ⟨-, -, -, hd⟩ := vertexRow_ok hrow
  rw [(upsertVertex_fields prev row).2.2.2, hd, Doc.get_norm, stampedDoc_get (by decide), h]
  rfl

theorem inner_snapshotPrior (hP : A.Places) (hS : A.Snapshots) (aid : String) (prev : VRow)
    (n : Node) : Inner A (snapshotPrior aid prev) n := by
  unfold snapshotPrior
  refine inner_ite (fun _ => inner_pure _ n) fun _ => ?_
  refine inner_ite (fun _ => inner_pure _ n) fun _ => ?_
  refine inner_read ?_
  refine inner_ite (fun _ => inner_pure _ n) fun _ => ?_
  have hstate : (((prev.doc.val.set "id" (.str (snapshotId aid prev))).set "root_id"
      (prev.rootId.orElse (.str aid))).set "state" (.str stateArchived)).get "state" =
      .str stateArchived := Doc.get_set_self _ _ _
  have h := inner_bind (f := fun _ => pure (some (snapshotId aid prev)))
    (inner_author (n := n) (((prev.doc.val.set "id" (.str (snapshotId aid prev))).set
      "root_id" (prev.rootId.orElse (.str aid))).set "state" (.str stateArchived)) hP
      (docAdm_snapshot hS hstate)) fun _ m _ => inner_pure _ m
  rwa [bind_assoc] at h

/-- The document `withSnapshot` hands on: the caller's, or the caller's naming its snapshot. -/
def Reparented (doc d : Doc) : Prop := d = doc ∨ ∃ v, d = doc.set "parent_id" v

theorem withSnapshot_runs (hP : A.Places) (hS : A.Snapshots) (doc : Doc) (newVersion : Bool)
    (n : Node) : Runs (withSnapshot doc true newVersion) n
      (fun d n' => Reparented doc d ∧ Micros A n n') (SameEnv n) := by
  unfold withSnapshot
  refine runs_ite ?_ fun _ => runs_pure ⟨.inl rfl, ReflTransGen.refl⟩
  intro _
  refine runs_bind (runs_ofExcept ?_ (SameEnv.refl n))
  intro aid _
  refine runs_read ?_
  cases n.db.vertex.lookup aid with
  | none => exact runs_pure ⟨.inl rfl, ReflTransGen.refl⟩
  | some p =>
    refine runs_ite ?_ fun _ => runs_pure ⟨.inl rfl, ReflTransGen.refl⟩
    intro _
    refine runs_bind ((inner_snapshotPrior hP hS aid p n).imp ?_)
    intro snap n' hm
    cases snap with
    | some s => exact runs_pure ⟨.inr ⟨_, rfl⟩, hm⟩
    | none => exact runs_pure ⟨.inr ⟨_, rfl⟩, hm⟩

theorem withSnapshot_consumed (doc : Doc) (newVersion : Bool) :
    withSnapshot doc false newVersion = pure doc := rfl

/-- What `put_artifact` needs of its document. -/
def PutAdm (A : Adm) (stampRev : Bool) (doc : Doc) : Prop :=
  (∀ d, Reparented doc d → DocAdm A stampRev d) ∧ (stampRev = false → DocObserved A doc)

theorem versionFor_consumed (doc : Doc) (n : Node) :
    Runs (versionFor doc false) n (fun v n' => n' = n ∧
      ∃ s, incomingVersion (doc.get "_origin") (doc.get "_seq") = some (v.1, s) ∧
        v.2 = doc.get "_seq") (SameEnv n) := by
  unfold versionFor
  rw [if_neg Bool.false_ne_true]
  cases incomingVersion (doc.get "_origin") (doc.get "_seq") with
  | none => exact runs_throw (SameEnv.refl n)
  | some v => exact runs_pure ⟨rfl, v.2, rfl, rfl⟩

theorem inner_observeIncoming {f : PUnit → DbM β} (hobs : DocObserved A doc)
    (hv : incomingVersion (doc.get "_origin") (doc.get "_seq") = some (origin, s))
    (h : Inner A (f ⟨⟩) { n with db := n.db.observe origin s }) :
    Inner A (observeIncoming origin (doc.get "_seq") >>= f) n := by
  unfold observeIncoming
  rw [(incomingVersion_asInt hv).2]
  exact inner_observeSeq (hobs origin s hv) h

theorem safe_putArtifact (hP : A.Places) (hS : A.Snapshots) (ha : PutAdm A stampRev doc) (newVersion : Bool)
    (n : Node) :
    Safe A (putArtifact doc stampRev newVersion) n := by
  unfold putArtifact
  refine safe_ite (fun _ => safe_throw _ n) fun _ => safe_write ?_
  intro m _ _
  cases stampRev with
  | true =>
    refine runs_bind ((withSnapshot_runs hP hS doc newVersion m).imp ?_)
    rintro d m' ⟨hd, hm⟩
    refine Runs.mono (inner_author (n := m') d hP (ha.1 d hd)) ?_ ?_
    · intro _ m'' hm''
      exact hm.trans hm''
    · intro m'' he
      exact (micros_sameEnv hm).trans he
  | false =>
    rw [withSnapshot_consumed, pure_bind]
    refine runs_bind ((versionFor_consumed doc m).imp ?_)
    rintro ⟨origin, seq⟩ m' ⟨rfl, s, hv, rfl⟩
    refine inner_observeIncoming (ha.2 rfl) hv ?_
    exact inner_consume hP (ha.1 doc (.inl rfl)) hv (observe_lookup _ _ _)

/-- What `put_many` needs of each document. -/
def PutManyAdm (A : Adm) (stampRev : Bool) (doc : Doc) : Prop :=
  DocAdm A stampRev doc ∧ (stampRev = false → DocObserved A doc)

theorem inner_lww (id : Val) (origin : String) (seq : Val) {f : VersionOrder → DbM β}
    (h : ∀ v, Inner A (f v) n) : Inner A (lww id origin seq >>= f) n := by
  have hrow : Runs (rowById id) n (fun _ n' => n' = n) (SameEnv n) := by
    refine runs_bind (runs_ofExcept ?_ (SameEnv.refl n))
    intro c _
    cases c <;> rfl
  refine runs_bind (runs_bind (hrow.mono ?_ fun _ he => he))
  rintro r _ rfl
  cases r with
  | none => exact h _
  | some r => exact h _

theorem inner_putOne (hP : A.Places) (ha : PutManyAdm A stampRev doc) (onUnordered : OnUnordered)
    (n : Node) :
    Inner A (putOne stampRev onUnordered doc) n := by
  unfold putOne
  refine inner_ite (fun _ => inner_throw _ n) fun _ => ?_
  cases stampRev with
  | true =>
    have h := inner_bind (f := fun _ => pure 1) (inner_author (n := n) doc hP ha.1)
      fun _ m _ => inner_pure 1 m
    rwa [bind_assoc] at h
  | false =>
    refine runs_bind ((versionFor_consumed doc n).imp ?_)
    rintro ⟨origin, seq⟩ n' ⟨rfl, s, hv, rfl⟩
    refine inner_observeIncoming (ha.2 rfl) hv ?_
    refine inner_lww _ _ _ ?_
    have hwritten : Inner A (putWritten doc (origin, doc.get "_seq"))
        { n' with db := n'.db.observe origin s } :=
      inner_bind (inner_consume hP ha.1 hv (observe_lookup _ _ _)) fun _ m _ => inner_pure 1 m
    intro verdict
    cases verdict with
    | newer => exact hwritten
    | unordered =>
      cases onUnordered with
      | keepLocal => exact inner_bind (inner_bump offLedger_unordered) fun _ m _ => inner_pure 1 m
      | takeRemote => exact hwritten
      | error => exact inner_throw _ _
    | older => exact inner_pure 1 _
    | same => exact inner_pure 1 _

theorem safe_putMany (hP : A.Places) {docs : List Doc} (ha : ∀ doc ∈ docs, PutManyAdm A stampRev doc)
    (batch : ℕ) (onUnordered : OnUnordered) (n : Node) :
    Safe A (putMany docs batch stampRev onUnordered) n :=
  safe_bulk fun doc hdoc m _ => inner_putOne hP (ha doc hdoc) onUnordered m

/-- What `add_edges` needs of each edge. -/
def AddAdm (A : Adm) (stampRev : Bool) (arg : EdgeArg) : Prop :=
  EdgeAdm A stampRev arg ∧ (stampRev = false → EdgeObserved A arg)

theorem safe_addEdges {edges : List EdgeArg} (ha : ∀ e ∈ edges, AddAdm A stampRev e) (batch : ℕ)
    (n : Node) :
    Safe A (addEdges edges batch stampRev) n := by
  refine safe_get (safe_bulk ?_)
  intro e he m hl
  exact inner_addOne (ha e he).1 (ha e he).2 (.inr (.inl hl.2.symm))

/-! ### Deleting -/

theorem safe_deleteEdge (src dst label : String) (n : Node) :
    Safe A (deleteEdge src dst label) n := by
  refine safe_get (safe_write ?_)
  intro m hl _
  refine inner_read ?_
  cases hr : m.db.edge.lookup (edgeKey src dst label) with
  | none => exact inner_pure _ m
  | some r =>
    refine (retireEdgeRow_runs (.inr (.inl hl.2.symm)) ?_).imp ?_
    · intro r' hr'
      rw [hr] at hr'
      exact (Option.some.inj hr').symm
    · rintro b m' ⟨h, -⟩
      exact micros_of_retires h

theorem safe_deleteEdgesTouching (node : String) (n : Node) :
    Safe A (deleteEdgesTouching node) n := by
  refine safe_get (safe_write ?_)
  intro m hl _
  refine (retireEdgesTouching_runs (.inr (.inl hl.2.symm))).imp ?_
  intro _ m' h
  exact micros_of_retires h

theorem settleRow_runs (aid : String) (r : VRow) (accounted : Bool) (n : Node) (E : Node → Prop) :
    Runs (settleRow aid r accounted) n
      (fun _ n' => n' = { n with db := n.db.settleVertex aid r accounted }) E := by
  cases accounted <;> rfl

theorem dropEdges_runs {leaves : ℕ+} (hL : n.EdgeLeaves leaves) (hn : n.inTxn = true) :
    Runs (dropEdges leaves aid true) n (fun _ n' => ReflTransGen Retire n n') (SameEnv n) := by
  refine runs_bind (Runs.mono ?_ (fun _ n' h => runs_pure h) fun _ h => h)
  unfold Runs
  rw [write_join hn]
  exact retireEdgesTouching_runs hL

theorem safe_deleteArtifact {accounted : Bool} (hA : accounted = false → A.evict) (aid : String)
    (n : Node) : Safe A (deleteArtifact aid accounted) n := by
  refine safe_get (safe_write ?_)
  intro m hl hm
  refine inner_read ?_
  cases hr : m.db.vertex.lookup aid with
  | none => exact inner_pure _ m
  | some r =>
    have htail : ∀ n', Inner A (do
        bumpAll (counterDeltas (some r.doc.val) none r.ct .none)
        syncTask aid (some r.doc.val) none r.ct) n' := fun n' =>
      inner_bind (inner_bumpAll offLedger_counterDeltas) fun _ n'' _ => inner_syncTask _ _ _ _ n''
    refine runs_bind (runs_modify ?_)
    cases accounted with
    | true =>
      refine runs_bind ((dropEdges_runs (n := { m with db := m.db.eraseVertex aid })
        (.inl hl.1.symm) hm).mono ?_ ?_)
      · intro _ m₁ hret
        refine runs_bind ((settleRow_runs aid r true m₁ (SameEnv m)).imp ?_)
        rintro - m₂ rfl
        have hdrop : Micro A m _ := Micro.drop hr hret
        refine (htail _).mono ?_ ?_
        · intro _ m₃ h₃
          exact ReflTransGen.head hdrop h₃
        · intro m₃ h₃
          exact hdrop.sameEnv.trans h₃
      · intro m₁ he
        exact (SameEnv.db m _).trans he
    | false =>
      refine runs_bind (runs_pure (runs_bind ((settleRow_runs aid r false _ (SameEnv m)).mono ?_
        fun _ h => h)))
      rintro - m₂ rfl
      have hevict : Micro A m _ := Micro.evict (hA rfl) hr
      refine (htail _).mono ?_ ?_
      · intro _ m₃ h₃
        exact ReflTransGen.head hevict h₃
      · intro m₃ h₃
        exact hevict.sameEnv.trans h₃

/-! ### Relabelling -/

theorem inner_setDoc (hA : A.patch) {r : VRow} {doc : JsonCol} (hr : n.db.vertex.lookup aid = some r) :
    Inner A (setDoc aid r doc) n :=
  inner_onDb (.patch hA hr)

theorem inner_relabelCommitted (hA : A.patch) (new aid old : String) (n : Node) :
    Inner A (relabelCommitted new aid old) n := by
  refine inner_read ?_
  cases hr : n.db.vertex.lookup aid with
  | none => exact inner_pure _ n
  | some r =>
    refine inner_ite (fun _ => ?_) fun _ => inner_pure _ n
    exact inner_bind (inner_setDoc hA hr) fun _ m _ => inner_pure _ m

theorem inner_relabelDraft (hA : A.patch) (new aid old : String) (n : Node) :
    Inner A (relabelDraft new aid old) n := by
  refine inner_read ?_
  cases hr : n.db.vertex.lookup aid with
  | none => exact inner_pure _ n
  | some r =>
    refine inner_ite (fun _ => inner_ofExcept fun col _ => ?_) fun _ => inner_pure _ n
    refine inner_bind (inner_setDoc hA hr) fun _ m _ => ?_
    exact inner_bind (inner_bumpAll offLedger_counterDeltas) fun _ m' _ => inner_pure _ m'

theorem inner_relabelChunk (hA : A.patch) (old new : String) (chunk : List String) (n : Node) :
    Inner A (relabelChunk old new chunk) n := by
  refine inner_ite (fun _ => ?_) fun _ => ?_
  · refine inner_bind (inner_foldlM fun aid _ k m _ =>
      inner_bind (inner_relabelCommitted hA new aid old m) fun _ m' _ => inner_pure _ m') ?_
    intro k m _
    refine inner_bind ?_ fun _ m' _ => inner_pure _ m'
    have h1 : Micro A m { m with db := m.db.bump (cState old) (-(k : ℤ)) } :=
      .retire (.bump (offLedger_state _))
    exact (ReflTransGen.single h1).tail (.retire (.bump (offLedger_state _)))
  · exact inner_foldlM fun aid _ k m _ =>
      inner_bind (inner_relabelDraft hA new aid old m) fun _ m' _ => inner_pure _ m'

theorem safe_relabelLoop (hA : A.patch) (old new : String) (batch : ℕ) (limit : Option ℕ)
    (exclude : Option String) :
    ∀ (fuel done batches : ℕ) (cursor : String) (n : Node),
      Safe A (relabelLoop old new batch limit exclude fuel done batches cursor) n
  | 0, _, _, _, n => safe_pure _ n
  | fuel + 1, done, batches, cursor, n => by
    unfold relabelLoop
    refine safe_ite (fun _ => safe_pure _ n) fun _ => safe_read ?_
    split
    · exact safe_pure _ n
    · refine safe_bind (safe_write ?_) fun k n' _ => safe_relabelLoop hA old new batch limit exclude
        fuel _ _ _ n'
      intro m _ _
      exact inner_foldlM fun chunk _ k m' _ =>
        inner_bind (inner_relabelChunk hA old new chunk m') fun _ m'' _ => inner_pure _ m''

theorem safe_relabelState (hA : A.patch) (old new : String) (batch : ℕ) (limit : Option ℕ)
    (exclude : Option String) (n : Node) : Safe A (relabelState old new batch limit exclude) n :=
  safe_ite (fun _ => safe_throw _ n) fun _ =>
    safe_read (safe_relabelLoop hA _ _ _ _ _ _ _ _ _ n)

/-! ### Task transitions -/

theorem inner_patchDoc (hA : A.patch) (aid : String) (fields : Doc) (n : Node) :
    Inner A (patchDoc aid fields) n := by
  refine inner_read ?_
  cases hr : n.db.vertex.lookup aid with
  | none => exact inner_pure _ n
  | some r => exact inner_ofExcept fun col _ => inner_setDoc hA hr

theorem inner_moveTask (hA : A.patch) (id : String) (t t' : TaskRow) (fields : Doc) (n : Node) :
    Inner A (moveTask id t t' fields) n := by
  refine inner_bind (inner_onDb .task) fun _ n₁ _ => ?_
  refine inner_bind (inner_patchDoc hA id fields n₁) fun _ n₂ _ => ?_
  have h1 : Micro A n₂ { n₂ with db := n₂.db.bump (cTaskStatus t.ct t.status) (-1) } :=
    .retire (.bump (offLedger_taskStatus _ _))
  exact (ReflTransGen.single h1).tail (.retire (.bump (offLedger_taskStatus _ _)))

theorem safe_taskUpdate (guard : TaskRow → Prop) [DecidablePred guard] {act : TaskRow → DbM PUnit}
    (h : ∀ t n, Inner A (act t) n) (id : String) (n : Node) :
    Safe A (write do
      let r ← readDb fun db => db.task.lookup id
      match r with
      | none => pure false
      | some t =>
        if guard t then do
          act t
          pure true
        else pure false : DbM Bool) n := by
  refine safe_write fun m _ _ => inner_read ?_
  cases m.db.task.lookup id with
  | none => exact inner_pure _ m
  | some t =>
    exact inner_ite (fun _ => inner_bind (h t m) fun _ m' _ => inner_pure _ m')
      fun _ => inner_pure _ m

theorem safe_tryClaim (hA : A.patch) (id workerId nowIso : String) (n : Node) :
    Safe A (tryClaim id workerId nowIso) n :=
  safe_taskUpdate (fun t => t.status = "pending") (fun t m => inner_moveTask hA _ t _ _ m) id n

theorem safe_renewLease (hA : A.patch) (id nowIso : String) (n : Node) :
    Safe A (renewLease id nowIso) n := by
  refine safe_write fun m _ _ => inner_read ?_
  cases m.db.task.lookup id with
  | none => exact inner_pure _ m
  | some t =>
    refine inner_ite (fun _ => inner_bind (inner_onDb .task) fun _ m₁ _ => ?_)
      fun _ => inner_pure _ m
    exact inner_bind (inner_patchDoc hA _ _ m₁) fun _ m₂ _ => inner_pure _ m₂

theorem safe_release (hA : A.patch) (id toStatus : String) (nextRetryAt : Option String) (n : Node) :
    Safe A (release id toStatus nextRetryAt) n :=
  safe_taskUpdate (fun t => t.status = "claimed") (fun t m => inner_moveTask hA _ t _ _ m) id n

theorem safe_settle (hA : A.patch) (id workerId toStatus : String) (nextRetryAt completedAt : Option String)
    (fields : Doc) (n : Node) :
    Safe A (settle id workerId toStatus nextRetryAt completedAt fields) n :=
  safe_taskUpdate (fun t => t.status = "claimed" ∧ t.claimedBy.eqStr workerId)
    (fun t m => inner_moveTask hA _ t _ _ m) id n

end Mantle
