import Mantle.Access.Link

/-!
# Mantle.Access.Cascade — deleting a container with its members

`_may_destroy_member` takes a member whose origin parent is the container for one the caller may delete; the origin
edge need not pass `delete`, and the member may carry a deny.
-/

namespace Mantle

open Run Tx Walk

variable {c root x : String}

/-! ### Reading the members -/

/-- `versions_of`: the lineage of a root, oldest first. -/
def versionsOf (db : Store) (rootId : String) : List Doc :=
  ((db.vertex.toPairs.filter fun v => v.2.rootId.eqStr rootId).insertionSort fun v w =>
    v.2.origin < w.2.origin ∨ v.2.origin = w.2.origin ∧ v.2.seq ≤ w.2.seq).map fun v => v.2.doc.val

/-- `_current_in`: the newest live version in the collection. -/
def currentIn (versions : List Doc) (collectionId : String) : Option Doc :=
  versions.reverse.find? fun d => decide (stateOf d ≠ "archived") && (d.get "collection_id").eqStr collectionId

/-- The version a listing shows of a member, archived ones included. -/
def chosenVersion (db : Store) (collectionId rootId : String) : Option Doc :=
  let versions := versionsOf db rootId
  let inColl := versions.filter fun d => (d.get "collection_id").eqStr collectionId
  let live := versions.filter fun d => decide (stateOf d ≠ "archived")
  let newest := if inColl.isEmpty then versions else inColl
  (currentIn versions collectionId).orElse fun _ => live.getLast?.orElse fun _ => newest.getLast?

/-- What `_delete_or_detach_members` reads of a row. -/
structure MemberRow where
  artId : String
  rootId : String
  orderKey : Option String
deriving DecidableEq, Repr

def memberRow (e : ERow) (chosen : Doc) : MemberRow :=
  let artId := ((chosen.get "id").orElse (.str "")).pyStr
  ⟨artId, rootIn chosen artId, (edgeProp e e.orderKey "order_key").asStr⟩

/-- Rows without an order key come last. -/
def memberRowLe (a b : MemberRow) : Prop :=
  match a.orderKey, b.orderKey with
  | some x, some y => x ≤ y
  | none, some _ => False
  | _, none => True

instance : DecidableRel memberRowLe := fun a b => by
  unfold memberRowLe
  cases a.orderKey <;> cases b.orderKey <;> infer_instance

/-- `list_collection_artifacts(include_archived=True)`. -/
def listCollectionArtifacts (db : Store) (collectionId : String) : Except AccessErr (List MemberRow) :=
  (membershipEdges db collectionId).map fun edges =>
    (edges.filterMap fun e => (chosenVersion db collectionId e.dst).map (memberRow e)).insertionSort memberRowLe

def edgesInto (db : Store) (node : String) : Except AccessErr (List ERow) :=
  let rows := (db.edge.toPairs.filter fun e => e.2.dst = node).insertionSort fun a b => a.1 ≤ b.1
  if rows.length > edgesOfLimit then .error .edgesTruncated else .ok (rows.map Prod.snd)

/-- `count_other_containers_for_root`. -/
def countOtherContainers (db : Store) (rootId excluding : String) : Except AccessErr ℕ :=
  (edgesInto db rootId).map fun edges => edges.countP fun e => decide (e.src ≠ excluding)

/-! ### Writing -/

def findMembership (db : Store) (collectionId rootId : String) : Except AccessErr (Option ERow) :=
  (membershipEdges db collectionId).map fun edges => edges.find? fun e => decide (e.dst = rootId)

/-- `remove_artifact_from_collection`; an exception of the delete is caught. -/
def removeArtifactFromCollection (n : Node) (collectionId rootId : String) : Except AccessErr Node :=
  (findMembership n.db collectionId rootId).map fun e =>
    match e with
    | none => n
    | some e => n.endsAt (deleteEdge collectionId rootId e.label)

/-- `delete_artifacts_by_root`: each version of the lineage as it is listed; an exception passes over one. -/
def deleteArtifactsByRoot (n : Node) (rootId : String) : Node :=
  (versionsOf n.db rootId).foldl (fun n v =>
    if (v.get "id").truthy then n.endsAt (deleteArtifact (v.get "id").pyStr true) else n) n

/-- The loop of `remove_all_edges_for_root`; the first exception ends it. -/
def removeEdges (n : Node) (rootId : String) : List ERow → Node
  | [] => n
  | e :: edges =>
    match deleteEdge e.src rootId e.label n with
    | .ok _ n' => removeEdges n' rootId edges
    | .error _ n' => n'

def removeAllEdgesForRoot (n : Node) (rootId : String) : Except AccessErr Node :=
  (edgesInto n.db rootId).map (removeEdges n rootId)

/-! ### One member -/

inductive Fate
  | evicted
  | refused
  | destroyed
deriving DecidableEq, Repr

section Members

variable (now : Val → Bool) (auth : Option String) (containerId : String)

/-- `_may_delete_artifact`: whatever goes wrong is a no. -/
def mayDeleteArtifact (db : Store) (artifactId : String) : Bool :=
  match auth with
  | none => false
  | some p => (checkAccess now db p artifactId Action.delete.name).isOk

def mayDestroyMember (db : Store) (rootId : String) : Bool :=
  match getOriginParent db rootId with
  | .error _ => false
  | .ok none => mayDeleteArtifact now auth db rootId
  | .ok (some parent) => if parent.src = containerId then true else mayDeleteArtifact now auth db rootId

def memberFate (db : Store) (rootId : String) : Except AccessErr Fate :=
  (countOtherContainers db rootId containerId).map fun others =>
    if others > 0 then .evicted
    else if mayDestroyMember now auth containerId db rootId then .destroyed
    else .refused

/-- A call that raises leaves what it has written. -/
abbrev Left := Node × Except AccessErr Fate

/-- One round of `_delete_or_detach_members`. -/
def memberStep (cascade : Bool) (n : Node) (rootId : String) : Left :=
  let evict := fun fate =>
    match removeArtifactFromCollection n containerId rootId with
    | .ok n' => (n', .ok fate)
    | .error e => (n, .error e)
  if !cascade then evict .evicted
  else
    match memberFate now auth containerId n.db rootId with
    | .error e => (n, .error e)
    | .ok .destroyed =>
      let n' := deleteArtifactsByRoot n rootId
      match removeAllEdgesForRoot n' rootId with
      | .ok n'' => (n'', .ok .destroyed)
      | .error e => (n', .error e)
    | .ok fate => evict fate

structure DeleteCounts where
  detached : ℕ
  destroyed : ℕ
  refused : ℕ
deriving DecidableEq, Repr

def DeleteCounts.add (k : DeleteCounts) : Fate → DeleteCounts
  | .evicted => { k with detached := k.detached + 1 }
  | .refused => { k with refused := k.refused + 1 }
  | .destroyed => { k with destroyed := k.destroyed + 1 }

def deleteOrDetachMembers (cascade : Bool) (n : Node) (k : DeleteCounts) :
    List MemberRow → Node × Except AccessErr DeleteCounts
  | [] => (n, .ok k)
  | row :: rows =>
    if row.artId = "" then deleteOrDetachMembers cascade n k rows
    else
      match memberStep now auth containerId cascade n row.rootId with
      | (n', .ok fate) => deleteOrDetachMembers cascade n' (k.add fate) rows
      | (n', .error e) => (n', .error e)

def reachedMembers (cascade : Bool) (n : Node) : List MemberRow → List (Node × String)
  | [] => []
  | row :: rows =>
    if row.artId = "" then reachedMembers cascade n rows
    else
      (n, row.rootId) ::
        match memberStep now auth containerId cascade n row.rootId with
        | (n', .ok _) => reachedMembers cascade n' rows
        | (_, .error _) => []

end Members

/-! ### The two calls -/

section Calls

variable (now : Val → Bool) (userId : String)

def deleteWorkspace (cascade : Bool) (auth : Option String) (n : Node) (workspaceId : String) :
    Node × Except AccessErr DeleteCounts :=
  match getWorkspace now n.db userId workspaceId .delete, listCollectionArtifacts n.db workspaceId with
  | .ok _, .ok rows =>
    match deleteOrDetachMembers now auth workspaceId cascade n ⟨0, 0, 0⟩ rows with
    | (n', .ok counts) => (n'.endsAt (deleteArtifact workspaceId true), .ok counts)
    | out => out
  | .error e, _ => (n, .error e)
  | _, .error e => (n, .error e)

def getWorkspaceArtifact (db : Store) (workspaceId artifactId : String) : Except AccessErr Doc := do
  let _ ← getWorkspace now db userId workspaceId .read
  match docOf db artifactId with
  | none => .error (.http 404 "Artifact not found")
  | some doc =>
    if (doc.get "collection_id").eqStr workspaceId then .ok doc else .error (.http 404 "Artifact not found")

/-- `delete_artifact`, on the rows: the members, the version, and the edges of a root without another live one. -/
def deleteArtifactIn (cascade : Bool) (auth : Option String) (n : Node) (workspaceId artifactId : String) :
    Node × Except AccessErr DeleteCounts :=
  if workspaceId = "" then (n, .error (.http 400 "delete_artifact requires the containing collection id"))
  else
    match getWorkspaceArtifact now userId n.db workspaceId artifactId, listCollectionArtifacts n.db artifactId with
    | .ok doc, .ok rows =>
      match deleteOrDetachMembers now auth artifactId cascade n ⟨0, 0, 0⟩ rows with
      | (n', .ok counts) =>
        let root := rootIn doc artifactId
        let others := (versionsOf n'.db root).filter fun v =>
          decide (stateOf v ≠ "archived") && !(v.get "id").eqStr artifactId
        let n'' := n'.endsAt (deleteArtifact artifactId true)
        if others.isEmpty then
          match removeAllEdgesForRoot n'' root with
          | .ok left => (left, .ok counts)
          | .error e => (n'', .error e)
        else (n'', .ok counts)
      | out => out
    | .error e, _ => (n, .error e)
    | _, .error e => (n, .error e)

end Calls

/-! ### Rows that go -/

/-- Every document carries the id of its row. -/
def DocsNamed (db : Store) : Prop := ∀ x r, db.vertex.lookup x = some r → r.doc.val.get "id" = .str x

/-- Between transactions: no row changes, and those that go are among `S`. -/
def Erases (S : String → Prop) (n n' : Node) : Prop := n.inTxn = false → n'.inTxn = false ∧
  ∀ x, n'.db.vertex.lookup x = n.db.vertex.lookup x ∨ S x ∧ n'.db.vertex.lookup x = none

section Erases

variable {S S' : String → Prop} {n n₁ n₂ : Node}

theorem Erases.refl (S : String → Prop) (n : Node) : Erases S n n := fun hn => ⟨hn, fun _ => .inl rfl⟩

theorem Erases.trans (h : Erases S n n₁) (h' : Erases S n₁ n₂) : Erases S n n₂ := by
  intro hn
  obtain ⟨hn₁, hrows⟩ := h hn
  obtain ⟨hn₂, hrows'⟩ := h' hn₁
  refine ⟨hn₂, fun x => ?_⟩
  rcases hrows' x with hx | hx
  · rw [hx]
    exact hrows x
  · exact .inr hx

theorem Erases.mono (h : Erases S n n₁) (hs : ∀ x, S x → S' x) : Erases S' n n₁ := by
  intro hn
  obtain ⟨hn₁, hrows⟩ := h hn
  exact ⟨hn₁, fun x => (hrows x).imp_right fun hx => ⟨hs x hx.1, hx.2⟩⟩

theorem Erases.back (h : Erases S n n₁) (hn : n.inTxn = false) {r : VRow} (hr : n₁.db.vertex.lookup x = some r) :
    n.db.vertex.lookup x = some r := by
  rcases (h hn).2 x with hx | ⟨-, hx⟩
  · exact hx ▸ hr
  · rw [hr] at hx
    cases hx

theorem DocsNamed.of_erases (hd : DocsNamed n.db) (h : Erases S n n₁) (hn : n.inTxn = false) : DocsNamed n₁.db :=
  fun x r hr => hd x r (h.back hn hr)

theorem ends_endsAt {α : Type} (m : DbM α) (n : Node) : Ends m n (n.endsAt m) := by
  unfold Node.endsAt
  cases h : m n with
  | ok a n' => exact .inl ⟨a, h⟩
  | error e n' => exact .inr ⟨e, h⟩

theorem erases_deleteEdge {src dst label : String} (hend : Ends (deleteEdge src dst label) n n₁) : Erases S n n₁ := by
  intro hn
  have hkeeps : Keeps (fun db => db.vertex = n.db.vertex) (deleteEdge src dst label) n :=
    keeps_deleteEdge (fun _ _ h => h) src dst label fun _ _ _ _ => rfl
  obtain ⟨hv, hn₁⟩ := hkeeps.ended hend rfl hn
  exact ⟨hn₁, fun x => .inl (by rw [hv])⟩

theorem edgeRules_of_vertex (J : Table String VRow → Prop) : EdgeRules fun db => J db.vertex where
  seq := fun _ _ h => h
  conflict := fun _ h => ⟨h, h⟩
  accept := by
    intro db key e origin seq leaf row h _ _ hdb
    rw [(Store.acceptEdge_tables _ _ _ _ _).2]
    exact hdb
  retire := fun _ _ _ _ _ h => h

theorem erases_deleteArtifact (aid : String) (n : Node) : Erases (· = aid) n (n.endsAt (deleteArtifact aid true)) := by
  intro hn
  let J := fun v : Table String VRow => ∀ x, v.lookup x = n.db.vertex.lookup x ∨ x = aid ∧ v.lookup x = none
  have hkeeps : Keeps (fun db => J db.vertex) (deleteArtifact aid true) n := by
    refine keeps_deleteArtifact (edgeRules_of_vertex J) aid true fun db r _ _ hJ x => ?_
    rw [(Store.rowDeleted_rows db aid r true).1, Table.lookup_erase_of]
    split_ifs with hx
    · exact .inr ⟨hx, rfl⟩
    · exact hJ x
  obtain ⟨hJ, hn₁⟩ := hkeeps.ended (ends_endsAt _ n) (fun _ => .inl rfl) hn
  exact ⟨hn₁, hJ⟩

theorem erases_removeArtifactFromCollection (h : removeArtifactFromCollection n c root = .ok n₁) :
    Erases S n n₁ := by
  unfold removeArtifactFromCollection at h
  obtain ⟨e, -, rfl⟩ := map_ok h
  cases e with
  | none => exact Erases.refl S n
  | some e => exact erases_deleteEdge (ends_endsAt _ n)

theorem erases_removeEdges (root : String) : ∀ (edges : List ERow) (n : Node), Erases S n (removeEdges n root edges)
  | [], n => Erases.refl S n
  | e :: edges, n => by
    unfold removeEdges
    cases h : deleteEdge e.src root e.label n with
    | ok a n' => exact (erases_deleteEdge (.inl ⟨a, h⟩)).trans (erases_removeEdges root edges n')
    | error err n' => exact erases_deleteEdge (.inr ⟨err, h⟩)

theorem erases_removeAllEdges (h : removeAllEdgesForRoot n root = .ok n₁) : Erases S n n₁ := by
  unfold removeAllEdgesForRoot at h
  obtain ⟨edges, -, rfl⟩ := map_ok h
  exact erases_removeEdges root edges n

/-- The rows of a lineage. -/
def OfRoot (db : Store) (root x : String) : Prop := ∃ r, db.vertex.lookup x = some r ∧ r.rootId.eqStr root = true

theorem mem_versionsOf {db : Store} {v : Doc} (h : v ∈ versionsOf db root) :
    ∃ x r, db.vertex.lookup x = some r ∧ r.rootId.eqStr root = true ∧ r.doc.val = v := by
  unfold versionsOf at h
  simp only [List.mem_map, List.mem_insertionSort, List.mem_filter, Prod.exists] at h
  obtain ⟨x, r, ⟨hm, hroot⟩, rfl⟩ := h
  exact ⟨x, r, Table.mem_toPairs.mp hm, hroot, rfl⟩

theorem erases_deleteArtifactsByRoot (hd : DocsNamed n.db) (root : String) :
    Erases (OfRoot n.db root) n (deleteArtifactsByRoot n root) := by
  have hloop : ∀ (vs : List Doc) (m : Node), (∀ v ∈ vs, v ∈ versionsOf n.db root) →
      Erases (OfRoot n.db root) m (vs.foldl (fun n v =>
        if (v.get "id").truthy then n.endsAt (deleteArtifact (v.get "id").pyStr true) else n) m) := by
    intro vs
    induction vs with
    | nil => exact fun m _ => Erases.refl _ m
    | cons v vs ih =>
      intro m hvs
      have hstep : Erases (OfRoot n.db root) m
          (if (v.get "id").truthy then m.endsAt (deleteArtifact (v.get "id").pyStr true) else m) := by
        split_ifs
        · obtain ⟨x, r, hr, hroot, rfl⟩ := mem_versionsOf (hvs v List.mem_cons_self)
          rw [hd x r hr]
          exact (erases_deleteArtifact x m).mono fun y hy => hy ▸ ⟨r, hr, hroot⟩
        · exact Erases.refl _ m
      rw [List.foldl_cons]
      exact hstep.trans (ih _ fun w hw => hvs w (List.mem_cons_of_mem v hw))
  exact hloop _ n fun _ h => h

end Erases

/-! ### What a call takes -/

section Taken

variable (now : Val → Bool) (auth : Option String) (c : String) (cascade : Bool)

def Destroys (e : Node × String) : Prop := cascade = true ∧ memberFate now auth c e.1.db e.2 = .ok .destroyed

/-- The row belongs to a member that is destroyed where the call comes to it. -/
def Taken (reached : List (Node × String)) (x : String) : Prop :=
  ∃ e ∈ reached, Destroys now auth c cascade e ∧ OfRoot e.1.db e.2 x

variable {now auth c cascade}

theorem erases_memberStep {n : Node} (hd : DocsNamed n.db) (root : String) :
    Erases (fun x => Destroys now auth c cascade (n, root) ∧ OfRoot n.db root x) n
      (memberStep now auth c cascade n root).1 := by
  have hevict : ∀ fate, Erases (fun x => Destroys now auth c cascade (n, root) ∧ OfRoot n.db root x) n
      (match removeArtifactFromCollection n c root with
        | .ok n' => ((n', .ok fate) : Left)
        | .error e => (n, .error e)).1 := by
    intro fate
    cases hr : removeArtifactFromCollection n c root with
    | ok n' => exact erases_removeArtifactFromCollection hr
    | error e => exact Erases.refl _ n
  unfold memberStep
  cases cascade with
  | false => exact hevict .evicted
  | true =>
    simp only [Bool.not_true, Bool.false_eq_true, if_false]
    cases hf : memberFate now auth c n.db root with
    | error e => exact Erases.refl _ n
    | ok fate =>
      cases fate with
      | evicted => exact hevict .evicted
      | refused => exact hevict .refused
      | destroyed =>
        dsimp only
        have hdel := (erases_deleteArtifactsByRoot hd root).mono fun x hx =>
          (⟨⟨rfl, hf⟩, hx⟩ : Destroys now auth c true (n, root) ∧ OfRoot n.db root x)
        cases he : removeAllEdgesForRoot (deleteArtifactsByRoot n root) root with
        | ok n' => exact hdel.trans (erases_removeAllEdges he)
        | error e => exact hdel

theorem erases_members : ∀ (rows : List MemberRow) (n : Node) (k : DeleteCounts), n.inTxn = false → DocsNamed n.db →
    Erases (Taken now auth c cascade (reachedMembers now auth c cascade n rows)) n
      (deleteOrDetachMembers now auth c cascade n k rows).1
  | [], n, _, _, _ => Erases.refl _ n
  | row :: rows, n, k, hn, hd => by
    unfold deleteOrDetachMembers reachedMembers
    by_cases hid : row.artId = ""
    · rw [if_pos hid, if_pos hid]
      exact erases_members rows n k hn hd
    · rw [if_neg hid, if_neg hid]
      have hstep := @erases_memberStep now auth c cascade n hd row.rootId
      cases hr : memberStep now auth c cascade n row.rootId with
      | mk n' out =>
        rw [hr] at hstep
        cases out with
        | error e => exact hstep.mono fun x hx => ⟨(n, row.rootId), List.mem_cons_self, hx⟩
        | ok fate =>
          have hrest := erases_members rows n' (k.add fate) (hstep hn).1 (hd.of_erases hstep hn)
          refine Erases.trans (hstep.mono fun x hx => ⟨(n, row.rootId), List.mem_cons_self, hx⟩)
            (hrest.mono ?_)
          rintro x ⟨e, he, hx⟩
          exact ⟨e, List.mem_cons_of_mem _ he, hx⟩

end Taken

inductive DeleteCall
  | workspace (workspaceId : String)
  | artifact (workspaceId artifactId : String)

def DeleteCall.container : DeleteCall → String
  | .workspace workspaceId => workspaceId
  | .artifact _ artifactId => artifactId

section Calls

variable (now : Val → Bool) (userId : String) (auth : Option String) (cascade : Bool) (n : Node)

def DeleteCall.run : DeleteCall → Node × Except AccessErr DeleteCounts
  | .workspace workspaceId => deleteWorkspace now userId cascade auth n workspaceId
  | .artifact workspaceId artifactId => deleteArtifactIn now userId cascade auth n workspaceId artifactId

/-- The members the call comes to; none where it is refused before. -/
def DeleteCall.reached : DeleteCall → List (Node × String)
  | .workspace workspaceId =>
    match getWorkspace now n.db userId workspaceId .delete, listCollectionArtifacts n.db workspaceId with
    | .ok _, .ok rows => reachedMembers now auth workspaceId cascade n rows
    | _, _ => []
  | .artifact workspaceId artifactId =>
    if workspaceId = "" then []
    else
      match getWorkspaceArtifact now userId n.db workspaceId artifactId, listCollectionArtifacts n.db artifactId with
      | .ok _, .ok rows => reachedMembers now auth artifactId cascade n rows
      | _, _ => []

variable {now userId auth cascade n}

theorem DeleteCall.erases (hn : n.inTxn = false) (hd : DocsNamed n.db) (call : DeleteCall) :
    Erases (fun x => x = call.container ∨
        Taken now auth call.container cascade (call.reached now userId auth cascade n) x) n
      (call.run now userId auth cascade n).1 := by
  cases call with
  | workspace workspaceId =>
    unfold run reached deleteWorkspace container
    dsimp only
    cases getWorkspace now n.db userId workspaceId .delete with
    | error e => exact Erases.refl _ n
    | ok entity =>
      cases listCollectionArtifacts n.db workspaceId with
      | error e => exact Erases.refl _ n
      | ok rows =>
        dsimp only
        have hmembers := (@erases_members now auth workspaceId cascade rows n ⟨0, 0, 0⟩ hn hd).mono
          fun x hx => (.inr hx : x = workspaceId ∨ _)
        generalize deleteOrDetachMembers now auth workspaceId cascade n ⟨0, 0, 0⟩ rows = out at hmembers ⊢
        obtain ⟨n', counts | e⟩ := out
        · exact hmembers
        · exact hmembers.trans ((erases_deleteArtifact workspaceId n').mono fun x hx => .inl hx)
  | artifact workspaceId artifactId =>
    unfold run reached deleteArtifactIn container
    dsimp only
    by_cases hw : workspaceId = ""
    · rw [if_pos hw, if_pos hw]
      exact Erases.refl _ n
    rw [if_neg hw, if_neg hw]
    cases getWorkspaceArtifact now userId n.db workspaceId artifactId with
    | error e => exact Erases.refl _ n
    | ok doc =>
      cases listCollectionArtifacts n.db artifactId with
      | error e => exact Erases.refl _ n
      | ok rows =>
        dsimp only
        have hmembers := (@erases_members now auth artifactId cascade rows n ⟨0, 0, 0⟩ hn hd).mono
          fun x hx => (.inr hx : x = artifactId ∨ _)
        generalize deleteOrDetachMembers now auth artifactId cascade n ⟨0, 0, 0⟩ rows = out at hmembers ⊢
        obtain ⟨n', e | counts⟩ := out
        · exact hmembers
        · dsimp only
          have hdel := hmembers.trans ((erases_deleteArtifact artifactId n').mono fun x hx =>
            (.inl hx : x = artifactId ∨ _))
          split_ifs
          · cases hr : removeAllEdgesForRoot (n'.endsAt (deleteArtifact artifactId true)) (rootIn doc artifactId) with
            | ok left => exact hdel.trans (erases_removeAllEdges hr)
            | error e => exact hdel
          · exact hdel

end Calls

/-! ### Within the caller's rights -/

/-- The line of the walk for `delete` from a node upward. -/
def lineFrom (db : Store) (node below : String) : Trail AccessErr String :=
  (climb (conductingParent db .delete) .chainUnterminated (originWalkCeiling - 1) [node, below] node).cons node

/-- The caller may delete a member under its origin parent `c`: by its own grants, or by an origin edge that passes
`delete` on to a line of `c` that allows it. -/
def OriginClear (now : Val → Bool) (db : Store) (p c root : String) : Prop :=
  ∃ doc, docOf db root = some doc ∧ (CheckReads now db p root ∧ ¬CheckDenies now db p .delete root) ∧
    (CheckAllows now db p .delete root ∨
      if rootIn doc root = root then
        (∃ e, getOriginParent db root = .ok (some e) ∧ e.conducts .delete = true) ∧ c ≠ "" ∧ c ≠ root ∧
          LineAllows now db p .delete (lineFrom db c root)
      -- a document that names another root is walked from there
      else LineAllows now db p .delete (lineFrom db (rootIn doc root) root))

section Line

variable {now : Val → Bool} {db : Store} {p : String} {a : Action}

theorem lineAllows_cons {t : Trail AccessErr String} : LineAllows now db p a (t.cons x) ↔
    (CheckReads now db p x ∧ ¬CheckDenies now db p a x) ∧ (CheckAllows now db p a x ∨ LineAllows now db p a t) := by
  constructor
  · rintro ⟨pre, r, post, hitems, hallow, hclear⟩
    cases pre with
    | nil =>
      obtain ⟨rfl, -⟩ := List.cons.inj hitems
      exact ⟨hclear x (by simp), .inl hallow⟩
    | cons y pre =>
      obtain ⟨rfl, hrest⟩ := List.cons.inj hitems
      exact ⟨hclear x (by simp), .inr ⟨pre, r, post, hrest, hallow, fun q hq => hclear q (List.mem_cons_of_mem x hq)⟩⟩
  · rintro ⟨hx, hallow | ⟨pre, r, post, hitems, hallow, hclear⟩⟩
    · refine ⟨[], x, t.items, rfl, hallow, fun q hq => ?_⟩
      rw [List.nil_append, List.mem_singleton] at hq
      exact hq ▸ hx
    · refine ⟨x :: pre, r, post, congrArg (x :: ·) hitems, hallow, fun q hq => ?_⟩
      rcases List.mem_cons.mp hq with rfl | hq
      · exact hx
      · exact hclear q hq

theorem not_lineAllows_nil {e : Option AccessErr} : ¬LineAllows now db p a ⟨[], e⟩ := by
  rintro ⟨pre, r, post, hitems, -⟩
  exact List.append_ne_nil_of_right_ne_nil pre (List.cons_ne_nil r post) hitems.symm

theorem not_lineAllows_nobody {t : Trail AccessErr String} : ¬LineAllows now db "" a t := by
  rintro ⟨pre, r, post, -, ⟨d, hd, -⟩, -⟩
  simp [resourceGrantDocs, grantDocsBy] at hd

theorem lineAllows_above {e : ERow} (he : getOriginParent db root = .ok (some e)) (hc : e.src = c) :
    LineAllows now db p .delete
        (climb (conductingParent db .delete) .chainUnterminated originWalkCeiling [root] root) ↔
      (∃ e, getOriginParent db root = .ok (some e) ∧ e.conducts .delete = true) ∧ c ≠ "" ∧ c ≠ root ∧
        LineAllows now db p .delete (lineFrom db c root) := by
  have hparent : conductingParent db .delete root =
      .ok (if e.src ≠ "" && e.conducts .delete then some e.src else none) := by
    unfold conductingParent
    rw [he]
    rfl
  rw [show originWalkCeiling = originWalkCeiling - 1 + 1 from rfl, climb, hparent, hc]
  by_cases hpass : c ≠ "" ∧ e.conducts .delete = true
  · rw [if_pos (by simp [hpass])]
    dsimp only
    by_cases hcr : c = root
    · rw [if_pos (by simp [hcr])]
      exact iff_of_false not_lineAllows_nil fun h => h.2.2.1 hcr
    · rw [if_neg (by simp [hcr])]
      exact ⟨fun h => ⟨⟨e, he, hpass.2⟩, hpass.1, hcr, h⟩, fun h => h.2.2.2⟩
  · rw [if_neg (by simpa using hpass)]
    refine iff_of_false not_lineAllows_nil ?_
    rintro ⟨⟨e', he', hcond⟩, hne, -⟩
    rw [he] at he'
    cases he'
    exact hpass ⟨hne, hcond⟩

theorem accepts_iff_originClear {e : ERow} (he : getOriginParent db root = .ok (some e)) (hc : e.src = c) :
    Accepts now db p root Action.delete.name ↔ OriginClear now db p c root := by
  have hnone : docOf db root = none → ¬Accepts now db p root Action.delete.name := by
    rintro hd ⟨held, hheld⟩
    unfold checkAccess at hheld
    rw [Action.ofName_name] at hheld
    simp [hd] at hheld
  by_cases hp : p = ""
  · subst hp
    refine iff_of_false ?_ ?_
    · rintro ⟨held, hheld⟩
      unfold checkAccess at hheld
      rw [Action.ofName_name] at hheld
      cases hd : docOf db root <;> simp [hd] at hheld
    · rintro ⟨doc, -, -, ⟨d, hd, -⟩ | hline⟩
      · simp [resourceGrantDocs, grantDocsBy] at hd
      · split_ifs at hline
        · exact not_lineAllows_nobody hline.2.2.2
        · exact not_lineAllows_nobody hline
  cases hd : docOf db root with
  | none =>
    refine iff_of_false (hnone hd) ?_
    rintro ⟨doc, hdoc, -⟩
    rw [hd] at hdoc
    cases hdoc
  | some doc =>
    have hline : LineAdmits now db p .delete root doc ↔
        LineAllows now db p .delete (originChain db root .delete (some (rootIn doc root))) :=
      or_iff_left fun h => by cases h.1
    have hclear : OriginClear now db p c root ↔ (CheckReads now db p root ∧ ¬CheckDenies now db p .delete root) ∧
        (CheckAllows now db p .delete root ∨
          if rootIn doc root = root then
            (∃ e, getOriginParent db root = .ok (some e) ∧ e.conducts .delete = true) ∧ c ≠ "" ∧ c ≠ root ∧
              LineAllows now db p .delete (lineFrom db c root)
          else LineAllows now db p .delete (lineFrom db (rootIn doc root) root)) := by
      constructor
      · rintro ⟨doc', hdoc', h⟩
        obtain rfl : doc = doc' := Option.some.inj (hd.symm.trans hdoc')
        exact h
      · exact fun h => ⟨doc, hd, h⟩
    rw [accepts_iff hd hp, hline, hclear]
    unfold originChain
    rw [chainRoot_rootIn hd]
    by_cases hroot : rootIn doc root = root
    · simp only [hroot, if_true]
      rw [lineAllows_cons, lineAllows_above he hc]
    · simp only [hroot, if_false]
      rw [lineAllows_cons]
      rfl

end Line

section Rights

variable {now : Val → Bool} {auth : Option String} {c p : String} {cascade : Bool} {n : Node}

theorem destroys_iff {e : Node × String} : Destroys now auth c cascade e ↔
    cascade = true ∧ countOtherContainers e.1.db e.2 c = .ok 0 ∧ mayDestroyMember now auth c e.1.db e.2 = true := by
  unfold Destroys memberFate
  refine and_congr_right fun _ => ?_
  cases countOtherContainers e.1.db e.2 c with
  | error err => simp [Except.map]
  | ok others =>
    by_cases ho : others > 0
    · simp [Except.map, ho, Nat.pos_iff_ne_zero.mp ho]
    · obtain rfl : others = 0 := by omega
      simp [Except.map]

theorem mayDeleteArtifact_iff {db : Store} :
    mayDeleteArtifact now (some p) db root = true ↔ Accepts now db p root Action.delete.name :=
  accepts_iff_acceptsB.symm

theorem reachedMembers_back : ∀ (rows : List MemberRow) (n : Node), n.inTxn = false → DocsNamed n.db →
    ∀ e ∈ reachedMembers now auth c cascade n rows, ∀ x r, e.1.db.vertex.lookup x = some r →
      n.db.vertex.lookup x = some r
  | [], _, _, _, _, he, _, _, _ => nomatch he
  | row :: rows, n, hn, hd, e, he, x, r, hr => by
    unfold reachedMembers at he
    by_cases hid : row.artId = ""
    · rw [if_pos hid] at he
      exact reachedMembers_back rows n hn hd e he x r hr
    · rw [if_neg hid] at he
      have hstep := @erases_memberStep now auth c cascade n hd row.rootId
      rcases List.mem_cons.mp he with rfl | he
      · exact hr
      · cases hm : memberStep now auth c cascade n row.rootId with
        | mk n' out =>
          rw [hm] at he hstep
          cases out with
          | error err => cases he
          | ok fate =>
            exact hstep.back hn (reachedMembers_back rows n' (hstep hn).1 (hd.of_erases hstep hn) e he x r hr)

theorem DeleteCall.reached_back {userId : String} (hn : n.inTxn = false) (hd : DocsNamed n.db) (call : DeleteCall)
    {e : Node × String} (he : e ∈ call.reached now userId auth cascade n) {r : VRow}
    (hr : e.1.db.vertex.lookup x = some r) : n.db.vertex.lookup x = some r := by
  cases call with
  | workspace workspaceId =>
    unfold reached at he
    dsimp only at he
    split at he
    · exact reachedMembers_back _ n hn hd e he x r hr
    · cases he
  | artifact workspaceId artifactId =>
    unfold reached at he
    dsimp only at he
    split_ifs at he
    · cases he
    · split at he
      · exact reachedMembers_back _ n hn hd e he x r hr
      · cases he

end Rights

/-- What a delete owes its caller: it destroys only members the caller may delete, and without `cascade` only the
container's own row. -/
structure WithinRights (now : Val → Bool) (p c : String) (cascade : Bool) (n after : Node)
    (reached : List (Node × String)) : Prop where
  allowed : ∀ e ∈ reached, Destroys now (some p) c cascade e → Accepts now e.1.db p e.2 Action.delete.name
  kept : ∀ x r, n.db.vertex.lookup x = some r → x ≠ c →
    (∀ e ∈ reached, Destroys now (some p) c cascade e → r.rootId.eqStr e.2 = false) →
      after.db.vertex.lookup x = some r
  detached : cascade = false → ∀ x, x ≠ c → after.db.vertex.lookup x = n.db.vertex.lookup x

/-- **When a cascade stays within the caller's rights.** -/
theorem cascade_within_rights_iff (now : Val → Bool) (p : String) (cascade : Bool) (n : Node) (hn : n.inTxn = false)
    (hd : DocsNamed n.db) (call : DeleteCall) :
    WithinRights now p call.container cascade n (call.run now p (some p) cascade n).1
        (call.reached now p (some p) cascade n) ↔
      (cascade = true → ∀ e ∈ call.reached now p (some p) cascade n,
        countOtherContainers e.1.db e.2 call.container = .ok 0 →
        ∀ parent, getOriginParent e.1.db e.2 = .ok (some parent) → parent.src = call.container →
          OriginClear now e.1.db p call.container e.2) := by
  constructor
  · intro h hc e he hothers parent hparent hsrc
    have hmay : mayDestroyMember now (some p) call.container e.1.db e.2 = true := by
      unfold mayDestroyMember
      rw [hparent]
      exact if_pos hsrc
    exact (accepts_iff_originClear hparent hsrc).mp (h.allowed e he (destroys_iff.mpr ⟨hc, hothers, hmay⟩))
  · intro h
    have herases := (@DeleteCall.erases now p (some p) cascade n hn hd call hn).2
    have hrows : ∀ x, x ≠ call.container →
        ¬Taken now (some p) call.container cascade (call.reached now p (some p) cascade n) x →
        (call.run now p (some p) cascade n).1.db.vertex.lookup x = n.db.vertex.lookup x := by
      intro x hx hno
      rcases herases x with hsame | ⟨rfl | htaken, -⟩
      · exact hsame
      · exact absurd rfl hx
      · exact absurd htaken hno
    refine ⟨fun e he hdes => ?_, fun x r hr hx hother => ?_, fun hc x hx => hrows x hx ?_⟩
    · obtain ⟨hc, hothers, hmay⟩ := destroys_iff.mp hdes
      unfold mayDestroyMember at hmay
      cases hparent : getOriginParent e.1.db e.2 with
      | error err =>
        rw [hparent] at hmay
        cases hmay
      | ok o =>
        rw [hparent] at hmay
        cases o with
        | none => exact mayDeleteArtifact_iff.mp hmay
        | some parent =>
          dsimp only at hmay
          by_cases hsrc : parent.src = call.container
          · exact (accepts_iff_originClear hparent hsrc).mpr (h hc e he hothers parent hparent hsrc)
          · rw [if_neg hsrc] at hmay
            exact mayDeleteArtifact_iff.mp hmay
    · rw [hrows x hx]
      · exact hr
      · rintro ⟨e, he, hdes, r', hr', hroot⟩
        obtain rfl : r = r' := Option.some.inj (hr.symm.trans (call.reached_back hn hd he hr'))
        rw [hother e he hdes] at hroot
        cases hroot
    · rintro ⟨e, -, ⟨hc', -⟩, -⟩
      rw [hc] at hc'
      cases hc'

/-! ### A member with a deny -/

def cascadeActs (effect : String) : List Act :=
  [.putArtifact [("id", .str "c")] true false,
   .putArtifact [("id", .str "m"), ("root_id", .str "m"), ("collection_id", .str "c")] true false,
   .putArtifact (grantDoc "g" "u" "c" "allow" ++ [("can_delete", .bool true)]) true false,
   .putArtifact (grantDoc "h" "u" "m" effect ++ [("can_delete", .bool true)]) true false]

def cascadeNode (effect : String) : Node := hereNode.run (cascadeActs effect)

theorem cascadeNode_named (effect : String) : DocsNamed (cascadeNode effect).db := by
  have hwritten : ∀ d : Doc, (d.get "id").truthy = true → d.get "_seq" = .none →
      (d.get "content_type" = .none ∨ ∃ s, d.get "content_type" = .str s) → WrittenDoc d :=
    fun d hid hseq hct => ⟨hid, fun b hb => Val.noConfusion (hseq.symm.trans hb), hct⟩
  have hdocs : Documented (cascadeNode effect).db := documented_run _ _ (cascadeActs effect)
    ⟨hwritten _ rfl rfl (.inl rfl), hwritten _ rfl rfl (.inl rfl), hwritten _ rfl rfl (.inr ⟨_, rfl⟩),
      hwritten _ rfl rfl (.inr ⟨_, rfl⟩), trivial⟩
  exact fun x r hr => (hdocs.named x r hr).2

theorem cascade_within_rights_iff_allowed :
    WithinRights (fun _ => true) "u" "c" true (cascadeNode "allow")
      (deleteWorkspace (fun _ => true) "u" true (some "u") (cascadeNode "allow") "c").1
      ((DeleteCall.workspace "c").reached (fun _ => true) "u" (some "u") true (cascadeNode "allow")) := by
  refine (cascade_within_rights_iff (fun _ => true) "u" true (cascadeNode "allow") (by decide +kernel)
    (cascadeNode_named "allow") (.workspace "c")).mpr ?_
  intro _ e he _ parent hparent hsrc
  have hall : ((DeleteCall.workspace "c").reached (fun _ => true) "u" (some "u") true (cascadeNode "allow")).all
      (fun e => acceptsB (fun _ => true) e.1.db "u" e.2 Action.delete.name) = true := by decide +kernel
  exact (accepts_iff_originClear hparent hsrc).mp (accepts_iff_acceptsB.mpr (List.all_eq_true.mp hall e he))

theorem cascade_destroys_denied :
    ¬∀ (now : Val → Bool) (p : String) (n : Node) (call : DeleteCall), n.inTxn = false → DocsNamed n.db →
      Accepts now n.db p call.container Action.delete.name →
        WithinRights now p call.container true n (call.run now p (some p) true n).1
          (call.reached now p (some p) true n) := by
  intro h
  have hrights := h (fun _ => true) "u" (cascadeNode "deny") (.workspace "c") (by decide +kernel)
    (cascadeNode_named "deny") (accepts_iff_acceptsB.mpr (by decide +kernel))
  have hdenied : ((DeleteCall.workspace "c").reached (fun _ => true) "u" (some "u") true (cascadeNode "deny")).any
      (fun e => decide (memberFate (fun _ => true) (some "u") "c" e.1.db e.2 = .ok .destroyed) &&
        !acceptsB (fun _ => true) e.1.db "u" e.2 Action.delete.name) = true := by decide +kernel
  obtain ⟨e, he, hb⟩ := List.any_eq_true.mp hdenied
  simp only [Bool.and_eq_true, decide_eq_true_eq, Bool.not_eq_true'] at hb
  have hacc := accepts_iff_acceptsB.mp (hrights.allowed e he ⟨rfl, hb.1⟩)
  rw [hb.2] at hacc
  cases hacc

end Mantle
