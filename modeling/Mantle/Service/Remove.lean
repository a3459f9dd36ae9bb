import Mantle.Service.Artifacts

/-!
# Mantle.Service.Remove — taking an artifact out of its containers (`remove_artifact_from_container`)

A removal counts the other containers of the root, then drops its own edge, or archives the artifact in place.  Between
the two another removal can drop the edge that was counted.
-/

namespace Mantle

open Run Tx

/-- The containers of a root: the sources of its containment edges. -/
def holders (db : Store) (rootId : String) : List String := (labelled db .inbound rootId containsLabel).map ERow.src

namespace Removal

inductive Outcome
  | unlinked
  | archived
  /-- The artifact had no live version. -/
  | alreadyArchived
deriving DecidableEq, Repr

/-! ### One call -/

section Call

variable (K : Caller) (containerId rootId : String)

/-- The root a call is about: of the version it names, else the id itself. -/
def rootOf (db : Store) (artifactId : String) : Except PyErr String :=
  (K.serving.entity (docOf db artifactId)).map fun
    | some a => (a.rootId.orElse a.id).pyStr
    | none => artifactId

def countOthers : ServiceM ℕ := do
  let n ← get
  let edge ← ofAccess (findMembership n.db containerId rootId)
  if edge.isNone then
    http 404 ("That artifact is not a member of this container — nothing was detached. It may "
      ++ "exist elsewhere, or not exist at all; this route cannot tell you which.")
  else ofAccess (countOtherContainers n.db rootId containerId)

/-- Another container holds the root: its edge here is dropped.  The current version here is then read, for the
index. -/
def unlink : ServiceM Outcome := do
  let n ← get
  let n' ← ofAccess (removeArtifactFromCollection n containerId rootId)
  set n'
  let _ ← ofPy (K.serving.entity (currentIn (versionsOf n'.db rootId) containerId))
  pure .unlinked

def mayUpdateArtifact (db : Store) (artifactId : String) : Bool :=
  match K.auth with
  | none => false
  | some p => (checkAccess K.now db p artifactId Action.update.name).isOk

def currentVersion (db : Store) : Except PyErr (Option Artifact) := do
  match ← K.serving.entity (currentIn (versionsOf db rootId) containerId) with
  | some a => pure (some a)
  | none => K.serving.entity (latestLive db rootId none)

/-- Nothing else holds it: the current version is archived where it is. -/
def archiveInPlace : ServiceM Outcome := do
  let n ← get
  let current ← ofPy (currentVersion K containerId rootId n.db)
  match current with
  | none => pure .alreadyArchived
  | some a =>
    if mayUpdateArtifact K n.db a.id.pyStr then do
      let _ ← K.updateMember (a.collectionId.orElse (.str containerId)).pyStr a.id.pyStr { state := some stateArchived }
      pure .archived
    else
      http 403 ("This is the only place that artifact is kept, and removing it would archive it; "
        ++ "you are not permitted to change it. Ask its owner.")

/-- What follows the count. -/
def settle (others : ℕ) : ServiceM Outcome :=
  if others > 0 then unlink K containerId rootId else archiveInPlace K containerId rootId

end Call

/-! ### Removals side by side -/

inductive Phase
  | idle
  /-- After the count of `others`.  Beside it: the containers whose containment edge was there to be counted, and
  those whose edge other calls have dropped since. -/
  | counted (others : ℕ) (seen gone : List String)
  | done (outcome : Except ServiceErr Outcome)

/-- The calls by the container they take the root out of. -/
structure State where
  node : Node
  calls : String → Phase

def start (n : Node) : State := ⟨n, fun _ => .idle⟩

inductive Event
  | count (K : Caller) (containerId artifactId : String)
  | settle (K : Caller) (containerId : String)

def Phase.lost (c : String) : Phase → Phase
  | .counted k seen gone => .counted k seen (c :: gone)
  | p => p

namespace State

variable (rootId : String) (s : State)

def answer (c : String) (p : Phase) : State := { s with calls := Function.update s.calls c p }

/-- The node after a call's second half; the others learn of a container that holds the root no more. -/
def moved (c : String) (n : Node) (out : Except ServiceErr Outcome) : State where
  node := n
  calls := Function.update
    (if c ∈ holders s.node.db rootId ∧ c ∉ holders n.db rootId then fun d => (s.calls d).lost c else s.calls) c
    (.done out)

/-- One event; a call on another root is none of this system's. -/
def step : Event → State
  | .count K c aid =>
    match s.calls c, rootOf K s.node.db aid with
    | .idle, .ok r =>
      if r = rootId then
        match countOthers c rootId s.node with
        | .ok k _ => s.answer c (.counted k ((holders s.node.db rootId).filter (· ≠ c)) [])
        | .error e _ => s.answer c (.done (.error e))
      else s
    | .idle, .error e => s.answer c (.done (.error (.raised e)))
    | _, _ => s
  | .settle K c =>
    match s.calls c with
    | .counted k _ _ =>
      match settle K c rootId k s.node with
      | .ok o n => s.moved rootId c n (.ok o)
      | .error e n => s.moved rootId c n (.error e)
    | _ => s

end State

/-- The root has one live version at most, and no other artifact has that version for its root. -/
def OneLive (db : Store) (rootId : String) : Prop :=
  ∀ x, LiveVersion db rootId x → ∀ y, LiveVersion db rootId y ∨ LiveVersion db x y → y = x

/-- Where a removal drops an edge, a containment edge is dropped only while a container it saw has lost none, and a link
only where there is no containment edge. Where it archives, there is one version to archive. -/
def Clear (rootId : String) (s : State) : Event → Prop
  | .count _ _ _ => True
  | .settle _ c =>
    match s.calls c with
    | .counted k seen gone =>
      if k > 0 then
        ∀ e, findMembership s.node.db c rootId = .ok (some e) →
          (∃ h, edgeHash (edgeKey c rootId e.label) (edgeRowContent e) = .ok h) ∧
            if e.label = containsLabel then ∃ d ∈ seen, d ∉ gone else c ∉ holders s.node.db rootId
      else OneLive s.node.db rootId
    | _ => True

end Removal

/-! ### The edges of a root -/

section Edges

variable {db db' : Store} {c root : String}

theorem mem_holders : c ∈ holders db root ↔
    ∃ key e, db.edge.lookup key = some e ∧ e.src = c ∧ e.dst = root ∧ e.label = containsLabel := by
  unfold holders
  simp only [List.mem_map, mem_labelled, Side.of]
  constructor
  · rintro ⟨e, ⟨hd, hl, key, hk⟩, hs⟩
    exact ⟨key, e, hk, hs, hd, hl⟩
  · rintro ⟨key, e, hk, hs, hd, hl⟩
    exact ⟨e, ⟨hd, hl, key, hk⟩, hs⟩

theorem holders_kept (h : ∀ key e, db.edge.lookup key = some e → ∃ e', db'.edge.lookup key = some e' ∧ e.SameEnds e')
    (hc : c ∈ holders db root) : c ∈ holders db' root := by
  obtain ⟨key, e, he, hs, hd, hl⟩ := mem_holders.mp hc
  obtain ⟨e', he', hends⟩ := h key e he
  exact mem_holders.mpr ⟨key, e', he', hends.1.trans hs, hends.2.1.trans hd, hends.2.2.trans hl⟩

theorem mem_membershipEdges {es : List ERow} (h : membershipEdges db c = .ok es) {e : ERow} :
    e ∈ es ↔ e.src = c ∧ ∃ key, db.edge.lookup key = some e := by
  unfold membershipEdges at h
  dsimp only at h
  split_ifs at h
  cases h
  simp only [List.mem_map, List.mem_insertionSort, List.mem_filter, Prod.exists, decide_eq_true_eq]
  constructor
  · rintro ⟨key, e', ⟨hm, hs⟩, rfl⟩
    exact ⟨hs, key, Table.mem_toPairs.mp hm⟩
  · rintro ⟨hs, key, hk⟩
    exact ⟨key, e, ⟨Table.mem_toPairs.mpr hk, hs⟩, rfl⟩

theorem findMembership_some {e : ERow} (h : findMembership db c root = .ok (some e)) :
    e.src = c ∧ e.dst = root ∧ ∃ key, db.edge.lookup key = some e := by
  obtain ⟨es, hes, hf⟩ := map_ok h
  have hsrc := (mem_membershipEdges hes).mp (List.mem_of_find?_eq_some hf)
  exact ⟨hsrc.1, by simpa using List.find?_some hf, hsrc.2⟩

theorem findMembership_none (h : findMembership db c root = .ok none) : c ∉ holders db root := by
  obtain ⟨es, hes, hf⟩ := map_ok h
  intro hc
  obtain ⟨key, e, he, hs, hd, -⟩ := mem_holders.mp hc
  have hno := List.find?_eq_none.mp hf e ((mem_membershipEdges hes).mpr ⟨hs, key, he⟩)
  simp [hd] at hno

theorem deleteEdge_exact (n : Node) {src dst label : String} {e : ERow}
    (he : n.db.edge.lookup (edgeKey src dst label) = some e) :
    Runs (deleteEdge src dst label) n (fun _ n' => (n'.db.vertex = n.db.vertex ∧
      n'.db.edge = n.db.edge.erase (edgeKey src dst label)) ∧ n'.inTxn = n.inTxn) fun n' => n'.inTxn = n.inTxn ∧
        (n.inTxn = false → n'.db = n.db) ∧ ∀ h, edgeHash (edgeKey src dst label) (edgeRowContent e) ≠ .ok h := by
  refine runs_bind (runs_get (write_exact (P := fun _ db => db.vertex = n.db.vertex ∧
    db.edge = n.db.edge.erase (edgeKey src dst label)) fun m hm _ => ?_))
  refine runs_read ?_
  rw [hm, he]
  unfold retireEdgeRow
  refine runs_read ?_
  rw [hm, he]
  refine runs_bind (runs_modify (runs_bind ?_))
  unfold xorEdge
  cases hh : edgeHash (edgeKey src dst label) (edgeRowContent e) with
  | error err => exact ⟨rfl, fun h hok => by cases hok⟩
  | ok h =>
    refine runs_bind (runs_pure (runs_modify (runs_bind (runs_modify (runs_bind (runs_modify (runs_pure ?_)))))))
    refine ⟨_, ?_, rfl⟩
    change m.db.vertex = n.db.vertex ∧ m.db.edge.erase (edgeKey src dst label) = _
    rw [hm]
    exact ⟨rfl, rfl⟩

theorem deleteEdge_drops {n : Node} (hn : n.inTxn = false) {src dst label : String} {e : ERow}
    (he : n.db.edge.lookup (edgeKey src dst label) = some e) {h : ℕ}
    (hh : edgeHash (edgeKey src dst label) (edgeRowContent e) = .ok h) :
    (n.endsAt (deleteEdge src dst label)).inTxn = false ∧
      (n.endsAt (deleteEdge src dst label)).db.vertex = n.db.vertex ∧
      (n.endsAt (deleteEdge src dst label)).db.edge = n.db.edge.erase (edgeKey src dst label) :=
  runs_endsAt (P := fun n' => n'.inTxn = false ∧ n'.db.vertex = n.db.vertex ∧
    n'.db.edge = n.db.edge.erase (edgeKey src dst label))
    ((deleteEdge_exact n he).mono (fun _ _ h' => ⟨h'.2.trans hn, h'.1⟩) fun _ h' => absurd hh (h'.2.2 h))

end Edges

/-! ### What the second half does -/

namespace Removal

section Spec

variable {K : Caller} {c root : String} {n : Node}

/-- The first edge from the container to the root is dropped, if there is one. -/
def Dropped (c root : String) (n n' : Node) : Prop :=
  findMembership n.db c root = .ok none ∧ n' = n ∨
    ∃ e, findMembership n.db c root = .ok (some e) ∧ n' = n.endsAt (deleteEdge c root e.label)

theorem unlink_runs : Runs (unlink K c root) n (fun _ n' => Dropped c root n n')
    fun n' => n' = n ∨ Dropped c root n n' := by
  unfold unlink
  refine runs_bind (runs_get (runs_bind (runs_ofAccess ?_ (.inl rfl))))
  intro n₁ h₁
  have hd : Dropped c root n n₁ := by
    unfold removeArtifactFromCollection at h₁
    obtain ⟨e, he, rfl⟩ := map_ok h₁
    cases e with
    | none => exact .inl ⟨he, rfl⟩
    | some e => exact .inr ⟨e, he, rfl⟩
  refine runs_bind ?_
  change Runs (do
    let _ ← ofPy (K.serving.entity (currentIn (versionsOf n₁.db root) c))
    pure Outcome.unlinked : ServiceM Outcome) n₁ _ _
  exact runs_bind (runs_ofPy (fun _ _ => runs_pure hd) (.inr hd))

/-- One put of a document in the state `archived`. -/
def ArchivePut (x : String) (doc : Doc) : Prop := doc.get "id" = .str x ∧ doc.get "state" = .str stateArchived

theorem updateMember_archives (hd : Named n.db) (ws x : String) :
    Runs (K.updateMember ws x { state := some stateArchived }) n
      (fun _ n' => ∃ y doc changed out, (y = x ∨ LiveVersion n.db x y) ∧ ArchivePut y doc ∧
        putArtifact doc true changed n = .ok out n')
      fun n' => n' = n ∨ ∃ doc changed e, putArtifact doc true changed n = .error e n' := by
  unfold Caller.updateMember
  refine runs_bind (runs_get (runs_bind (runs_ofPy ?_ (.inl rfl))))
  intro workspace _
  refine runs_ite (fun _ => runs_http (.inl rfl)) fun _ => runs_bind (runs_ofPy ?_ (.inl rfl))
  intro target htarget
  cases target with
  | none => exact runs_http (.inl rfl)
  | some a =>
    dsimp only
    unfold Caller.updateTarget
    by_cases hs : a.state = stateArchived
    · rw [if_neg (by simp [hs]), if_pos hs, if_neg (by simp)]
      exact runs_http (.inl rfl)
    · rw [if_pos ⟨rfl, hs⟩]
      refine runs_bind (runs_pure ?_)
      unfold Caller.archiveEntity
      refine runs_bind (updateEntity_runs.mono ?_ ?_)
      · rintro - n' ⟨doc, changed, out, hdoc, hput⟩
        have hstate : doc.get "state" = .str stateArchived := toLatticeDoc_state hdoc
        rcases targetOf_live hd htarget with hid | ⟨y, hid, hy⟩
        · exact runs_pure ⟨x, doc, changed, out, .inl rfl, ⟨toLatticeDoc_id hdoc hid, hstate⟩, hput⟩
        · exact runs_pure ⟨y, doc, changed, out, .inr hy, ⟨toLatticeDoc_id hdoc hid, hstate⟩, hput⟩
      · rintro n' (rfl | ⟨doc, changed, e, -, hput⟩)
        · exact .inl rfl
        · exact .inr ⟨doc, changed, e, hput⟩

theorem currentVersion_live {db : Store} (hd : Named db) {a : Artifact}
    (h : currentVersion K c root db = .ok (some a)) : ∃ x, a.id = .str x ∧ LiveVersion db root x := by
  obtain ⟨here, hhere, h⟩ := bind_ok h
  cases here with
  | some b =>
    cases h
    obtain ⟨v, hv, -⟩ := entity_some hhere
    rw [hv] at hhere
    obtain ⟨hmem, hs, -⟩ := mem_currentIn hv
    exact entity_live hd hmem hs hhere
  | none =>
    obtain ⟨v, hv, -⟩ := entity_some h
    dsimp only at h
    rw [hv] at h
    obtain ⟨hmem, hs⟩ := mem_latestLive hv
    exact entity_live hd hmem hs h

theorem currentVersion_none {db : Store} (h : currentVersion K c root db = .ok none) (x : String) :
    ¬LiveVersion db root x := by
  obtain ⟨here, hhere, h⟩ := bind_ok h
  cases here with
  | some b => cases h
  | none => exact latestLive_none (entity_none h) x

theorem archiveInPlace_runs (hd : Named n.db) : Runs (archiveInPlace K c root) n
    (fun _ n' => n' = n ∧ (∀ x, ¬LiveVersion n.db root x) ∨
      ∃ x y doc changed out, LiveVersion n.db root x ∧ (y = x ∨ LiveVersion n.db x y) ∧ ArchivePut y doc ∧
        putArtifact doc true changed n = .ok out n')
    fun n' => n' = n ∨ ∃ doc changed e, putArtifact doc true changed n = .error e n' := by
  unfold archiveInPlace
  refine runs_bind (runs_get (runs_bind (runs_ofPy ?_ (.inl rfl))))
  intro current hcurrent
  cases current with
  | none => exact runs_pure (.inl ⟨rfl, currentVersion_none hcurrent⟩)
  | some a =>
    obtain ⟨x, hid, hx⟩ := currentVersion_live hd hcurrent
    refine runs_ite (fun _ => ?_) fun _ => runs_http (.inl rfl)
    rw [hid]
    refine runs_bind ((updateMember_archives hd _ x).imp ?_)
    rintro - n' ⟨y, doc, changed, out, hy, hput⟩
    exact runs_pure (.inr ⟨x, y, doc, changed, out, hx, hy, hput⟩)

end Spec

/-! ### Every run -/

section Run

variable {root c : String} {n n₀ : Node} {s : State}

/-- The rows of a node are named, and those of `n₀` are all there. -/
structure Standing (n₀ n : Node) : Prop where
  txn : n.inTxn = false
  named : Named n.db
  there : ∀ y, (n₀.db.vertex.lookup y).isSome = true → (n.db.vertex.lookup y).isSome = true

theorem Standing.of_vertex (h : Standing n₀ n) {n' : Node} (htxn : n'.inTxn = false)
    (hv : n'.db.vertex = n.db.vertex) : Standing n₀ n' :=
  ⟨htxn, fun x r hr => h.named x r (hv ▸ hr), fun y hy => hv ▸ h.there y hy⟩

structure Archives (x : String) (n n' : Node) : Prop where
  put : ∃ doc, ArchivePut x doc ∧ PutDone doc n.db n'.db
  txn : n'.inTxn = false
  edges : EdgesSound n.db → EdgesSound n'.db

theorem archives_of_put (hn : n.inTxn = false) {doc : Doc} {changed : Bool} {out : Doc} {n' : Node} {x : String}
    (hdoc : ArchivePut x doc) (h : putArtifact doc true changed n = .ok out n') : Archives x n n' := by
  obtain ⟨hdone, htxn⟩ := (putArtifact_writes doc true changed hn).ok h
  exact ⟨⟨doc, hdoc, hdone⟩, htxn, fun he =>
    ((keeps_putArtifact edgesSound_rowRules fun _ _ => trivial).ended (.inl ⟨out, h⟩) he hn).1⟩

theorem Archives.live {x : String} (h : Archives x n n₀) :
    (∀ y r, n₀.db.vertex.lookup y = some r → stateOf r.doc.val ≠ stateArchived →
      y ≠ x ∧ n.db.vertex.lookup y = some r) := by
  obtain ⟨doc, ⟨hid, hstate⟩, hdone⟩ := h.put
  have harch : ∀ d : Doc, d.get "state" = .str stateArchived → stateOf d = stateArchived := by
    intro d hd
    unfold stateOf
    rw [hd]
    decide
  have hrow : ∀ d a b, d.get "state" = .str stateArchived → RowPut d a b →
      (∀ y r, a.vertex.lookup y = some r → stateOf r.doc.val ≠ stateArchived → n.db.vertex.lookup y = some r) →
      ∀ y r, b.vertex.lookup y = some r → stateOf r.doc.val ≠ stateArchived → n.db.vertex.lookup y = some r := by
    intro d a b hd hr ha y r hy hs
    rcases hr.lookup hy with ⟨-, hof⟩ | hy
    · refine absurd (harch _ ?_) hs
      rw [hof.holds "state" (by decide), hd]
      rfl
    · exact ha y r hy hs
  have hback := hdone.carry (I := fun b => ∀ y r, b.vertex.lookup y = some r → stateOf r.doc.val ≠ stateArchived →
      n.db.vertex.lookup y = some r) (fun _ _ hs ha => by rw [hs.vertex]; exact ha)
    (fun y p a b hr => hrow _ a b (snapshotDoc_named y p).2.2 hr)
    (fun d a b hd hr => hrow d a b ((hd.get (by decide)).trans hstate) hr) fun _ _ hy _ => hy
  intro y r hy hs
  refine ⟨?_, hback y r hy hs⟩
  rintro rfl
  obtain ⟨r', hr', hholds⟩ := hdone.own hid
  rw [hy] at hr'
  obtain rfl := Option.some.inj hr'
  refine hs (harch _ ?_)
  rw [hholds "state" (by decide), hstate]
  rfl

/-- What the second half of a call leaves, whether it returns or raises. -/
inductive Settled (c root : String) (n : Node) (others : ℕ) : Bool → Node → Prop
  | dropped {n'} (returns : Bool) (hk : others > 0) (h : Dropped c root n n') : Settled c root n others returns n'
  | lifeless (h : ∀ x, ¬LiveVersion n.db root x) : Settled c root n others true n
  | archived {n'} (x y : String) (hk : ¬others > 0) (hx : LiveVersion n.db root x)
      (hy : y = x ∨ LiveVersion n.db x y) (h : Archives y n n') : Settled c root n others true n'
  | failed {n'} (hdb : n'.db = n.db) (htxn : n'.inTxn = false) : Settled c root n others false n'

theorem settle_settled (hn : n.inTxn = false) (hd : Named n.db) (K : Caller) (k : ℕ) :
    Runs (settle K c root k) n (fun _ n' => Settled c root n k true n') fun n' => Settled c root n k false n' := by
  unfold settle
  refine runs_ite (fun hk => ?_) fun hk => ?_
  · refine unlink_runs.mono (fun _ n' h => .dropped true hk h) ?_
    rintro n' (rfl | h)
    · exact .failed rfl hn
    · exact .dropped false hk h
  · refine (archiveInPlace_runs hd).mono ?_ ?_
    · rintro - n' (⟨rfl, h⟩ | ⟨x, y, doc, changed, out, hx, hy, hdoc, hput⟩)
      · exact .lifeless h
      · exact .archived x y hk hx hy (archives_of_put hn hdoc hput)
    · rintro n' (rfl | ⟨doc, changed, e, h⟩)
      · exact .failed rfl hn
      · obtain ⟨hdb, htxn⟩ := (putArtifact_writes doc true changed hn).error h
        exact .failed hdb htxn

theorem deleteEdge_vertex (hn : n.inTxn = false) (src dst label : String) :
    (n.endsAt (deleteEdge src dst label)).inTxn = false ∧
      (n.endsAt (deleteEdge src dst label)).db.vertex = n.db.vertex := by
  have hkeeps : Keeps (fun db => db.vertex = n.db.vertex) (deleteEdge src dst label) n :=
    keeps_deleteEdge (fun _ _ h => h) src dst label fun _ _ _ _ => rfl
  obtain ⟨hv, htxn⟩ := hkeeps.ended (ends_endsAt _ n) rfl hn
  exact ⟨htxn, hv⟩

theorem Standing.settled (h : Standing n₀ n) {k : ℕ} {returns : Bool} {n' : Node}
    (hs : Settled c root n k returns n') : Standing n₀ n' := by
  cases hs with
  | dropped _ _ hd =>
    rcases hd with ⟨-, rfl⟩ | ⟨e, -, rfl⟩
    · exact h
    · obtain ⟨htxn, hv⟩ := deleteEdge_vertex h.txn c root e.label
      exact h.of_vertex htxn hv
  | lifeless _ => exact h
  | archived x y _ hx hy ha =>
    obtain ⟨doc, ⟨hid, -⟩, hdone⟩ := ha.put
    have hne : y ≠ "" := by
      rcases hy with rfl | ⟨r, hr, -⟩
      · obtain ⟨r, hr, -⟩ := hx
        exact (h.named y r hr).1
      · exact (h.named y r hr).1
    exact ⟨ha.txn, h.named.putDone hdone hid hne, fun z hz => hdone.there (h.there z hz)⟩
  | failed hdb htxn => exact h.of_vertex htxn (by rw [hdb])

/-- What an event is: nothing, the first half of a call, or its second. -/
inductive Stepped (root : String) (s : State) : Event → State → Prop
  | same {e} : Stepped root s e s
  | counted {e} (c : String) (k : ℕ) (hidle : s.calls c = .idle) :
    Stepped root s e (s.answer c (.counted k ((holders s.node.db root).filter (· ≠ c)) []))
  | refused {e} (c : String) (err : ServiceErr) (hidle : s.calls c = .idle) :
    Stepped root s e (s.answer c (.done (.error err)))
  | settled {K c k seen gone n'} (out : Except ServiceErr Outcome) (hc : s.calls c = .counted k seen gone)
    (h : Settled c root s.node k out.isOk n') : Stepped root s (.settle K c) (s.moved root c n' out)

theorem step_stepped (hn : s.node.inTxn = false) (hd : Named s.node.db) (e : Event) :
    Stepped root s e (s.step root e) := by
  cases e with
  | count K c aid =>
    unfold State.step
    dsimp only
    cases hc : s.calls c with
    | idle =>
      cases hr : rootOf K s.node.db aid with
      | error err => exact .refused c _ hc
      | ok r =>
        dsimp only
        by_cases hroot : r = root
        · rw [if_pos hroot]
          cases hcount : countOthers c root s.node with
          | ok k n' => exact .counted c k hc
          | error err n' => exact .refused c err hc
        · rw [if_neg hroot]
          exact .same
    | counted k seen gone => exact .same
    | done out => exact .same
  | settle K c =>
    unfold State.step
    dsimp only
    cases hc : s.calls c with
    | counted k seen gone =>
      dsimp only
      have hspec := @settle_settled root c s.node hn hd K k
      cases hrun : settle K c root k s.node with
      | ok o n' =>
        have hs := hspec.ok hrun
        exact .settled (.ok o) hc hs
      | error err n' =>
        have hs := hspec.error hrun
        exact .settled (.error err) hc hs
    | idle => exact .same
    | done out => exact .same

theorem Standing.step (h : Standing n₀ s.node) (e : Event) : Standing n₀ (s.step root e).node := by
  have hstep := @step_stepped root s h.txn h.named e
  generalize s.step root e = s' at hstep
  cases hstep with
  | same => exact h
  | counted c k _ => exact h
  | refused c err _ => exact h
  | settled out _ hs => exact h.settled hs

/-! ### Homes -/

/-- A container that a call saw holds the root as long as no other call has dropped its edge. -/
def SeenHeld (db : Store) (root c : String) : Phase → Prop
  | .counted _ seen gone => ∀ d ∈ seen, d ≠ c ∧ (d ∉ gone → d ∈ holders db root)
  | _ => True

/-- The call has returned. -/
def Phase.Removed : Phase → Prop
  | .done (.ok _) => True
  | _ => False

/-- The root has a home, and while a version of it is live, its homes are among the first ones, and none is one it was
taken out of. -/
structure Homed (root : String) (n₀ : Node) (s : State) : Prop extends Standing n₀ s.node where
  edges : EdgesSound s.node.db
  held : ∃ d, d ∈ holders s.node.db root
  seen : ∀ c, SeenHeld s.node.db root c (s.calls c)
  first : ∀ x, LiveVersion s.node.db root x → ∀ d ∈ holders s.node.db root,
    d ∈ holders n₀.db root ∧ ¬(s.calls d).Removed

theorem Phase.removed_lost {c : String} {p : Phase} : (p.lost c).Removed ↔ p.Removed := by
  cases p <;> exact Iff.rfl

theorem Homed.answer (h : Homed root n₀ s) {c : String} {p : Phase} (hseen : SeenHeld s.node.db root c p)
    (hp : ¬p.Removed) : Homed root n₀ (s.answer c p) where
  toStanding := h.toStanding
  edges := h.edges
  held := h.held
  seen d := by
    by_cases hd : d = c
    · subst hd
      simpa [State.answer] using hseen
    · simpa [State.answer, hd] using h.seen d
  first x hx d hd := by
    refine ⟨(h.first x hx d hd).1, ?_⟩
    by_cases hdc : d = c
    · subst hdc
      simpa [State.answer] using hp
    · simpa [State.answer, hdc] using (h.first x hx d hd).2

/-- After the second half of a call of `c`: the other containers hold the root as before. -/
theorem Homed.moved (h : Homed root n₀ s) {c : String} {n' : Node} {out : Except ServiceErr Outcome}
    (hstand : Standing n₀ n') (hedges : EdgesSound n'.db)
    (hothers : ∀ d, d ≠ c → d ∈ holders s.node.db root → d ∈ holders n'.db root)
    (hheld : ∃ d, d ∈ holders n'.db root)
    (hlive : ∀ x, LiveVersion n'.db root x → LiveVersion s.node.db root x ∧
      (∀ d ∈ holders n'.db root, d ∈ holders s.node.db root) ∧ (out.isOk = true → c ∉ holders n'.db root)) :
    Homed root n₀ (s.moved root c n' out) where
  toStanding := hstand
  edges := hedges
  held := hheld
  seen d := by
    by_cases hd : d = c
    · subst hd
      simp [State.moved, SeenHeld]
    · have hs := h.seen d
      simp only [State.moved, Function.update_of_ne hd]
      by_cases hlost : c ∈ holders s.node.db root ∧ c ∉ holders n'.db root
      · rw [if_pos hlost]
        cases hp : s.calls d with
        | counted k seen gone =>
          rw [hp] at hs
          intro e he
          refine ⟨(hs e he).1, fun hgone => ?_⟩
          rw [List.mem_cons, not_or] at hgone
          exact hothers e hgone.1 ((hs e he).2 hgone.2)
        | idle => trivial
        | done o => trivial
      · rw [if_neg hlost]
        cases hp : s.calls d with
        | counted k seen gone =>
          rw [hp] at hs
          intro e he
          refine ⟨(hs e he).1, fun hgone => ?_⟩
          have hbefore := (hs e he).2 hgone
          by_cases hec : e = c
          · subst hec
            exact not_not.mp fun hno => hlost ⟨hbefore, hno⟩
          · exact hothers e hec hbefore
        | idle => trivial
        | done o => trivial
  first x hx d hd := by
    obtain ⟨hxs, hback, hc⟩ := hlive x hx
    obtain ⟨hfirst, hrem⟩ := h.first x hxs d (hback d hd)
    refine ⟨hfirst, ?_⟩
    by_cases hdc : d = c
    · subst hdc
      simp only [State.moved, Function.update_self]
      cases out with
      | ok o => exact absurd hd (hc rfl)
      | error err => exact fun h => h
    · simp only [State.moved, Function.update_of_ne hdc]
      split_ifs
      · exact fun hr => hrem (Phase.removed_lost.mp hr)
      · exact hrem

theorem holders_erase {db db' : Store} (hkeyed : EdgesSound db) {key : EdgeKey} {e : ERow}
    (he : db.edge.lookup key = some e) (hs : e.src = c) (hd : e.dst = root) (hdb : db'.edge = db.edge.erase key) :
    (∀ d, d ∈ holders db' root → d ∈ holders db root) ∧ (∀ d, d ≠ c → d ∈ holders db root → d ∈ holders db' root) ∧
      (e.label = containsLabel → c ∉ holders db' root) := by
  have hrow : ∀ k r, db'.edge.lookup k = some r ↔ k ≠ key ∧ db.edge.lookup k = some r := by
    intro k r
    rw [hdb, Table.lookup_erase_of]
    split_ifs with hk <;> simp [hk]
  refine ⟨fun d hdd => ?_, fun d hne hdd => ?_, fun hl hc => ?_⟩
  · obtain ⟨k, r, hr, h⟩ := mem_holders.mp hdd
    exact mem_holders.mpr ⟨k, r, ((hrow k r).mp hr).2, h⟩
  · obtain ⟨k, r, hr, hsrc, h⟩ := mem_holders.mp hdd
    refine mem_holders.mpr ⟨k, r, (hrow k r).mpr ⟨?_, hr⟩, hsrc, h⟩
    rintro rfl
    rw [he] at hr
    obtain rfl := Option.some.inj hr
    exact hne (hsrc.symm.trans hs)
  · obtain ⟨k, r, hr, hsrc, hdst, hlab⟩ := mem_holders.mp hc
    obtain ⟨hk, hr⟩ := (hrow k r).mp hr
    refine hk ?_
    rw [hkeyed.keyed k r hr, hkeyed.keyed key e he, hsrc, hdst, hlab, hs, hd, hl]

theorem Homed.step (h : Homed root n₀ s) {e : Event} (hclear : Clear root s e) : Homed root n₀ (s.step root e) := by
  have hstep := @step_stepped root s h.txn h.named e
  generalize s.step root e = s' at hstep
  cases hstep with
  | same => exact h
  | counted c k hidle =>
    refine h.answer (fun d hd => ?_) (fun hr => hr)
    rw [List.mem_filter] at hd
    exact ⟨by simpa using hd.2, fun _ => hd.1⟩
  | refused c err hidle => exact h.answer trivial fun hr => hr
  | @settled K c k seen gone n' out hc hs =>
    have hstand := h.toStanding.settled hs
    unfold Clear at hclear
    dsimp only at hclear
    rw [hc] at hclear
    dsimp only at hclear
    generalize hret : out.isOk = returns at hs
    cases hs with
    | lifeless hnone =>
      exact h.moved hstand h.edges (fun _ _ hd => hd) h.held fun x hx => absurd hx (hnone x)
    | failed hdb htxn =>
      refine h.moved hstand (hdb ▸ h.edges) (fun _ _ hd => hdb ▸ hd) (hdb ▸ h.held) fun x hx => ?_
      rw [hdb] at hx ⊢
      exact ⟨hx, fun _ hd => hd, fun hok => absurd (hret.symm.trans hok) (by decide)⟩
    | dropped _ hk hd =>
      rw [if_pos hk] at hclear
      rcases hd with ⟨hnone, rfl⟩ | ⟨e, he, rfl⟩
      · exact h.moved hstand h.edges (fun _ _ hd => hd) h.held fun x hx =>
          ⟨hx, fun _ hd => hd, fun _ => findMembership_none hnone⟩
      · obtain ⟨⟨hash, hhash⟩, hlabel⟩ := hclear e he
        obtain ⟨hsrc, hdst, key, hkey⟩ := findMembership_some he
        obtain rfl : key = edgeKey c root e.label := by rw [h.edges.keyed key e hkey, hsrc, hdst]
        obtain ⟨-, hv, hedge⟩ := deleteEdge_drops h.txn hkey hhash
        obtain ⟨hback, hothers, hgone⟩ := holders_erase h.edges hkey hsrc hdst hedge
        have hedges : EdgesSound (s.node.endsAt (deleteEdge c root e.label)).db := by
          refine h.edges.of_rows fun k r hr => ?_
          rw [hedge, Table.lookup_erase_of] at hr
          split_ifs at hr
          exact hr
        have hno : c ∉ holders (s.node.endsAt (deleteEdge c root e.label)).db root := by
          by_cases hl : e.label = containsLabel
          · exact hgone hl
          · rw [if_neg hl] at hlabel
            exact fun hc' => hlabel (hback c hc')
        refine h.moved hstand hedges hothers ?_ fun x hx => ⟨?_, hback, fun _ => hno⟩
        · by_cases hl : e.label = containsLabel
          · rw [if_pos hl] at hlabel
            obtain ⟨d, hd, hdg⟩ := hlabel
            have hseen := h.seen c
            rw [hc] at hseen
            exact ⟨d, hothers d (hseen d hd).1 ((hseen d hd).2 hdg)⟩
          · rw [if_neg hl] at hlabel
            obtain ⟨d, hd⟩ := h.held
            exact ⟨d, hothers d (fun hdc => hlabel (hdc ▸ hd)) hd⟩
        · obtain ⟨r, hr, hlive⟩ := hx
          exact ⟨r, hv ▸ hr, hlive⟩
    | archived x y hk hx hy ha =>
      rw [if_neg hk] at hclear
      obtain ⟨doc, -, hdone⟩ := ha.put
      have hkept : ∀ d, d ∈ holders s.node.db root → d ∈ holders n'.db root := fun d hd =>
        holders_kept (fun key e he => hdone.kept he) hd
      obtain ⟨d, hd⟩ := h.held
      refine h.moved hstand (ha.edges h.edges) (fun d _ hd => hkept d hd) ⟨d, hkept d hd⟩ fun z hz => ?_
      -- the version archived is the one that was live
      exfalso
      obtain ⟨r, hr, hroot, hlive⟩ := hz
      obtain ⟨hne, hbefore⟩ := ha.live z r hr hlive
      have hyx : y = x := hy.elim id fun hy => hclear x hx y (.inr hy)
      exact hne ((hclear x hx z (.inl ⟨r, hbefore, hroot, hlive⟩)).trans hyx.symm)

/-- **Removing never orphans**, in a run that is clear. -/
theorem removal_keeps_home (root : String) (n : Node) (hn : n.inTxn = false) (hdocs : Documented n.db)
    (hheld : holders n.db root ≠ []) (events : List Event) :
    (∀ y, (n.db.vertex.lookup y).isSome = true →
      ((events.foldl (State.step root) (start n)).node.db.vertex.lookup y).isSome = true) ∧
    (Along (State.step root) (Clear root) (start n) events →
      holders (events.foldl (State.step root) (start n)).node.db root ≠ [] ∧
      ((∀ c ∈ holders n.db root, ((events.foldl (State.step root) (start n)).calls c).Removed) →
        ∀ x, ¬LiveVersion (events.foldl (State.step root) (start n)).node.db root x)) := by
  have hstart : Standing n (start n).node := ⟨hn, hdocs.named, fun _ hy => hy⟩
  refine ⟨?_, fun hclear => ?_⟩
  · have hrun : ∀ (es : List Event) (s : State), Standing n s.node →
        Standing n (es.foldl (State.step root) s).node := by
      intro es
      induction es with
      | nil => exact fun _ hs => hs
      | cons e es ih => exact fun s hs => ih _ (hs.step e)
    exact (hrun events (start n) hstart).there
  · obtain ⟨d, hd⟩ := List.exists_mem_of_ne_nil _ hheld
    have hhomed : Homed root n (start n) :=
      ⟨hstart, hdocs.toEdgesSound, ⟨d, hd⟩, fun _ => trivial, fun _ _ _ hd => ⟨hd, fun hr => hr⟩⟩
    have hs := along_inv (fun (s : State) e (hs : Homed root n s) hc => hs.step hc) events _ hhomed hclear
    obtain ⟨d, hd⟩ := hs.held
    refine ⟨List.ne_nil_of_mem hd, fun hall x hx => ?_⟩
    obtain ⟨hfirst, hrem⟩ := hs.first x hx d hd
    exact hrem (hall d hfirst)

end Run

/-! ### Two containers -/

instance : DecidablePred Phase.Removed
  | .done (.ok _) => isTrue trivial
  | .done (.error _) => isFalse id
  | .counted _ _ _ => isFalse id
  | .idle => isFalse id

theorem liveVersion_iff {db : Store} {root x : String} : LiveVersion db root x ↔
    ∃ e ∈ db.vertex.toPairs, e.1 = x ∧ e.2.rootId.eqStr root = true ∧ stateOf e.2.doc.val ≠ stateArchived := by
  unfold LiveVersion
  simp only [Prod.exists, Table.mem_toPairs]
  exact ⟨fun ⟨r, h⟩ => ⟨x, r, h.1, rfl, h.2⟩, fun ⟨_, r, h, rfl, h'⟩ => ⟨r, h, h'⟩⟩

theorem oneLive_iff {db : Store} {root : String} : OneLive db root ↔
    ∀ e ∈ db.vertex.toPairs, e.2.rootId.eqStr root = true ∧ stateOf e.2.doc.val ≠ stateArchived →
      ∀ e' ∈ db.vertex.toPairs, (e'.2.rootId.eqStr root = true ∨ e'.2.rootId.eqStr e.1 = true) ∧
        stateOf e'.2.doc.val ≠ stateArchived → e'.1 = e.1 := by
  unfold OneLive
  simp only [liveVersion_iff]
  constructor
  · intro h e he hl e' he' hl'
    exact h e.1 ⟨e, he, rfl, hl⟩ e'.1 (hl'.1.imp (fun hr => ⟨e', he', rfl, hr, hl'.2⟩) fun hr => ⟨e', he', rfl, hr, hl'.2⟩)
  · rintro h x ⟨e, he, rfl, hl⟩ y (⟨e', he', rfl, hr, hl'⟩ | ⟨e', he', rfl, hr, hl'⟩)
    · exact h e he hl e' he' ⟨.inl hr, hl'⟩
    · exact h e he hl e' he' ⟨.inr hr, hl'⟩

instance (db : Store) (root : String) : Decidable (OneLive db root) := decidable_of_iff _ oneLive_iff.symm

instance {P : ERow → Prop} [DecidablePred P] :
    (x : Except AccessErr (Option ERow)) → Decidable (∀ e, x = .ok (some e) → P e)
  | .ok (some e) => decidable_of_iff (P e) ⟨fun h e' he => by cases he; exact h, fun h => h e rfl⟩
  | .ok none => isTrue fun _ he => nomatch he
  | .error _ => isTrue fun _ he => nomatch he

instance : (x : Except PyErr ℕ) → Decidable (∃ h, x = .ok h)
  | .ok h => isTrue ⟨h, rfl⟩
  | .error _ => isFalse fun ⟨_, h⟩ => nomatch h

instance (root : String) (s : State) : DecidablePred (Clear root s)
  | .count _ _ _ => isTrue trivial
  | .settle K c =>
    match h : s.calls c with
    | .counted k seen gone =>
      decidable_of_iff
        (if k > 0 then
          ∀ e, findMembership s.node.db c root = .ok (some e) →
            (∃ h, edgeHash (edgeKey c root e.label) (edgeRowContent e) = .ok h) ∧
              if e.label = containsLabel then ∃ d ∈ seen, d ∉ gone else c ∉ holders s.node.db root
        else OneLive s.node.db root) (by simp only [Clear, h])
    | .idle => isTrue (by simp only [Clear, h])
    | .done out => isTrue (by simp only [Clear, h])

def twoHomes : List Act :=
  [.putArtifact [("id", .str "a")] true false,
   .putArtifact [("id", .str "b")] true false,
   .putArtifact [("id", .str "x"), ("root_id", .str "x"), ("collection_id", .str "a")] true false,
   .addEdges [.tuple (.str "b") (.str "x") (.str "contains") []] 500 true,
   .putArtifact (grantDoc "g" "u" "x" "allow" ++ [("can_update", .bool true)]) true false]

def twoHomesNode : Node := hereNode.run twoHomes

theorem twoHomes_documented : Documented twoHomesNode.db := by
  have hwritten : ∀ d : Doc, (d.get "id").truthy = true → d.get "_seq" = .none →
      (d.get "content_type" = .none ∨ ∃ s, d.get "content_type" = .str s) → WrittenDoc d :=
    fun d hid hseq hct => ⟨hid, fun b hb => Val.noConfusion (hseq.symm.trans hb), hct⟩
  exact documented_run _ _ twoHomes ⟨hwritten _ rfl rfl (.inl rfl), hwritten _ rfl rfl (.inl rfl),
    hwritten _ rfl rfl (.inl rfl), trivial, hwritten _ rfl rfl (.inr ⟨_, rfl⟩), trivial⟩

/-- The user, served with ciphers nothing is sealed under. -/
def keeper : Caller where
  serving :=
    { float := flatFloat
      ciphers := markCipher
      clock := ⟨"fresh", "now"⟩
      sha256 := id
      putBytes := fun _ _ _ _ _ _ => .ok none }
  now := fun _ => true
  userId := "u"
  auth := some "u"

/-- One removal after the other. -/
def oneByOne : List Event :=
  [.count keeper "a" "x", .settle keeper "a", .count keeper "b" "x", .settle keeper "b"]

theorem removal_keeps_home_oneByOne :
    holders (oneByOne.foldl (State.step "x") (start twoHomesNode)).node.db "x" ≠ [] ∧
      ∀ x, ¬LiveVersion (oneByOne.foldl (State.step "x") (start twoHomesNode)).node.db "x" x := by
  obtain ⟨hidle, hstart, hfirst, hsecond, hgone⟩ : twoHomesNode.inTxn = false ∧ holders twoHomesNode.db "x" ≠ [] ∧
      Clear "x" ((start twoHomesNode).step "x" (.count keeper "a" "x")) (.settle keeper "a") ∧
        Clear "x" ((oneByOne.take 3).foldl (State.step "x") (start twoHomesNode)) (.settle keeper "b") ∧
          ∀ c ∈ holders twoHomesNode.db "x", ((oneByOne.foldl (State.step "x") (start twoHomesNode)).calls c).Removed := by
    decide +kernel
  have hclear : Along (State.step "x") (Clear "x") (start twoHomesNode) oneByOne :=
    ⟨trivial, hfirst, trivial, hsecond, trivial⟩
  obtain ⟨hheld, hlive⟩ := (removal_keeps_home "x" twoHomesNode hidle twoHomes_documented hstart oneByOne).2 hclear
  exact ⟨hheld, hlive hgone⟩

def sideBySide : List Event :=
  [.count keeper "a" "x", .count keeper "b" "x", .settle keeper "a", .settle keeper "b"]

theorem removal_orphans :
    ¬∀ (root : String) (n : Node) (events : List Event), n.inTxn = false → Documented n.db → holders n.db root ≠ [] →
      (∀ c ∈ holders n.db root, ((events.foldl (State.step root) (start n)).calls c).Removed) →
        holders (events.foldl (State.step root) (start n)).node.db root ≠ [] ∧
          ∀ x, ¬LiveVersion (events.foldl (State.step root) (start n)).node.db root x := by
  intro h
  obtain ⟨hidle, hstart, hgone, hnone⟩ : twoHomesNode.inTxn = false ∧ holders twoHomesNode.db "x" ≠ [] ∧
      (∀ c ∈ holders twoHomesNode.db "x", ((sideBySide.foldl (State.step "x") (start twoHomesNode)).calls c).Removed) ∧
        holders (sideBySide.foldl (State.step "x") (start twoHomesNode)).node.db "x" = [] := by decide +kernel
  exact (h "x" twoHomesNode sideBySide hidle twoHomes_documented hstart hgone).1 hnone

end Removal

end Mantle
