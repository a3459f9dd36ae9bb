import Mantle.Service.Edits

/-!
# Mantle.Service.Follow — what was written last is what is read

A call that leaves an old address in place, or names another one than it stored under, serves an earlier body.
-/

namespace Mantle

open Json Run Tx

namespace Bodies

variable {changed : Bool} {db : Store} {doc : Doc} {now : Val → Bool} {p : Particulars}
  {rootId t userId : String} {v : Val}

variable {after : Serving} {c ws y : String} {e : Edit} {n' : Node}

/-! ### The calls and their runs -/

inductive Call
  | create (workspaceId : String) (c : Creation)
  | update (workspaceId artifactId : String) (e : Edit)
  | upsert (workspaceId rootId : String) (w : IdentityWrite)
  /-- An edit of a top-level artifact; its second half is served as `after` says. -/
  | top (workspaceId : String) (e : Edit) (after : Serving)

namespace Call

def run (K : Caller) : Call → ServiceM Artifact
  | .create workspaceId c => K.createWorkspaceArtifact workspaceId c
  | .update workspaceId artifactId e => K.updateMember workspaceId artifactId e
  | .upsert workspaceId rootId w => K.upsertIdentityMember workspaceId rootId w
  | .top workspaceId e after => K.updateWorkspace after workspaceId e

def content : Call → Option String
  | .create _ c => some c.content
  | .update _ _ e => e.content
  | .upsert _ _ w => w.content
  | .top _ e _ => e.content

def grant : Call → Option Particulars
  | .create _ c => some c.grant
  | .upsert _ _ w => some w.grant
  | _ => none

end Call

/-- A call, and the object store once it has returned. -/
structure Event where
  caller : Caller
  call : Call
  objects : Objects

/-- The node, the object store, and the content written last into the artifact, once it was created. -/
structure State where
  node : Node
  objects : Objects
  last : Option String

/-- The content the artifact has after a call that returned `a`. -/
def State.lastAfter (x : String) (s : State) (e : Event) (a : Artifact) : Option String :=
  if a.id.eqStr x then
    if docOf s.node.db x = none then some (e.call.content.getD "")
    else s.last.map fun c => e.call.content.getD c
  else s.last

def State.step (x : String) (s : State) (e : Event) : State :=
  match e.call.run e.caller s.node with
  | .ok a n => ⟨n, e.objects, s.lastAfter x e a⟩
  | .error _ n => { s with node := n }

/-- The call returns; the tiers answer it as they are found; its ids are new; and the object store is as it was, or has
the content. -/
structure Returns (M : Media) (x : String) (s : State) (e : Event) (a : Artifact) (n : Node) : Prop where
  returned : e.call.run e.caller s.node = .ok a n
  served : Served M s.objects e.caller.serving
  after : ∀ ws ed after, e.call = .top ws ed after → Served M e.objects after
  uuid : e.caller.serving.clock.uuid ≠ "" ∧ docOf s.node.db e.caller.serving.clock.uuid = none
  grant : ∀ p, e.call.grant = some p → p.id ≠ "" ∧ p.id ≠ x
  objects : e.objects = s.objects ∨ ∃ y key blob, a.id = .str y ∧ '/' ∉ y.toList ∧ KeyOf y key ∧
    e.call.content = some (M.text blob) ∧ e.objects = Function.update s.objects key (some blob)

def storedContext (M : Media) (x : String) (db : Store) : Doc :=
  loadedContext M.float (((docOf db x).getD []).get "context")

/-- What a call on the artifact must meet. -/
def Clear (M : Media) (x : String) (s : State) (e : Event) : Prop :=
  match e.call with
  | .create ws c => CreationClear M e.objects x e.caller s.node.db ws c
  | .update _ _ ed => ∀ c, s.last = some c →
      EditClear M e.objects x c e.caller.serving (storedContext M x s.node.db) ed
  | .upsert ws root w =>
      (docOf s.node.db x = none → CreationClear M e.objects x e.caller s.node.db ws (w.creation root)) ∧
        ∀ c, s.last = some c → EditClear M e.objects x c e.caller.serving (storedContext M x s.node.db)
          { callerContext := w.context, content := w.content }
  | .top _ ed _ => ∀ c, s.last = some c → TopClear M e.objects x c (storedContext M x s.node.db) ed

/-- A step of a run: a call that returns, and that meets its conditions where it is about the artifact. -/
def Sound (M : Media) (x : String) (s : State) (e : Event) : Prop :=
  ∃ a n, Returns M x s e a n ∧ (a.id = .str x → Clear M x s e)

/-! ### The row of the artifact -/

section Kept

variable (M : Media) (objects : Objects) (x : String)

/-- The row of the artifact keeps the body written last, and refers to it as `ref` says. -/
structure Stands (last : Option String) (ref : String → Val → Prop) (n : Node) : Prop where
  idle : n.inTxn = false
  named : Named n.db
  row : ∀ c, last = some c → ∃ r, n.db.vertex.lookup x = some r ∧ RowKept M objects x c r.doc.val ∧
    ref c (r.doc.val.get "content_ref")

/-- The row of the artifact keeps the body written last. -/
abbrev Kept (last : Option String) (n : Node) : Prop := Stands M objects x last (fun _ _ => True) n

end Kept

variable {M : Media} {objects objects' served : Objects} {x : String} {last : Option String} {ref : String → Val → Prop}
  {a : Artifact} {n : Node} {S : Serving}

theorem Stands.kept (h : Stands M objects x last ref n) : Kept M objects x last n :=
  ⟨h.idle, h.named, fun c hc => (h.row c hc).imp fun _ hr => ⟨hr.1, hr.2.1, trivial⟩⟩

theorem Stands.of_vertex (h : Stands M objects x last ref n) (hv : n'.db.vertex = n.db.vertex) (hn : n'.inTxn = false) :
    Stands M objects x last ref n' := by
  refine ⟨hn, ?_, ?_⟩
  · unfold Named
    rw [hv]
    exact h.named
  · rw [hv]
    exact h.row

theorem Stands.follows (h : Stands M objects x last ref n)
    (hf : ∀ c, last = some c → Follows M objects objects' x c) : Stands M objects' x last ref n :=
  ⟨h.idle, h.named, fun c hc => (h.row c hc).imp fun _ hr => ⟨hr.1, hr.2.1.follows (hf c hc), hr.2.2⟩⟩

/-! ### Entities of the store -/

theorem docOf_named (hd : Named db) {r : VRow} (hr : db.vertex.lookup y = some r) :
    docOf db y = some r.doc.val := by
  have hid := (hd y r hr).2
  have hne : r.doc.val.isEmpty = false := by
    cases hdoc : r.doc.val with
    | nil =>
      rw [hdoc] at hid
      cases hid
    | cons e d => rfl
  unfold docOf
  rw [hr]
  simp only [Option.bind_some, hne, Bool.false_eq_true, if_false]

section Read

variable (hf : ∀ t, ReadsFloat M.float (M.float t)) (hx : x ≠ "")

/-- The artifact as an entity of its row. -/
structure ReadOf (M : Media) (objects : Objects) (x c : String) (ref : String → Val → Prop) (db : Store) (a : Artifact) :
    Prop where
  member : Member M objects x c a
  ref : ref c a.contentRef
  located : Addressed M objects x c a.contentRef (storedContext M x db) ∨ Unaddressed a.contentRef (storedContext M x db)
  same : SameAddress (storedContext M x db) (loadedContext M.float a.context)

include hf hx

theorem entityOf_read (h : Stands M objects x last ref n) (hS : Served M objects S) (ha : EntityOf S n.db a) :
    ∃ y, y ≠ "" ∧ a.id = .str y ∧ docOf n.db y ≠ none ∧
      (y = x → ∀ c, last = some c → ReadOf M objects x c ref n.db a) := by
  obtain ⟨y, r, hr, hread⟩ := ha
  obtain ⟨hy, hid⟩ := h.named y r hr
  have hdoc := docOf_named h.named hr
  refine ⟨y, hy, fromLatticeDoc_id hread hid hy, by simp [hdoc], ?_⟩
  rintro rfl c hc
  obtain ⟨r', hr', hkept, href⟩ := h.row c hc
  obtain rfl := Option.some.inj (hr.symm.trans hr')
  obtain ⟨hmember, hsame, hkeeps⟩ := hkept.read hf hS hx hread
  have hstored : storedContext M y n.db = loadedContext M.float (r.doc.val.get "context") := by
    unfold storedContext
    rw [hdoc, Option.getD_some]
  refine ⟨hmember, hsame ▸ href, ?_, ?_⟩
  · rw [hstored, hsame]
    exact hkept.body.address
  · rw [hstored]
    exact sameAddress hkeeps

end Read

/-! ### One write -/

section Put

variable (hf : ∀ t, ReadsFloat M.float (M.float t)) (hS : Served M served S)

include hf hS in
theorem put_own (h : Kept M objects x last n) (hx : x ≠ "") (ha : Member M objects' x c a)
    (hdoc : toLatticeDoc S.float S.ciphers a = .ok doc) :
    Runs (stored (putArtifact doc true changed)) n
      (fun _ => Stands M objects' x (some c) fun _ v => v = a.contentRef) fun _ => True := by
  refine runs_stored ((putArtifact_writes doc true changed h.idle).mono ?_ fun _ _ => trivial)
  rintro - n' ⟨hput, hn⟩
  obtain ⟨hkept, href⟩ := ha.put hf hS hdoc
  obtain ⟨r, hr, hrow⟩ := hput.own hkept.id
  obtain ⟨hstored, href'⟩ := hkept.stored hrow
  refine ⟨hn, Named.putDone hput hkept.id hx h.named, fun c' hc => ?_⟩
  cases hc
  exact ⟨r, hr, hstored, href'.trans href⟩

theorem put_other (h : Stands M objects x last ref n) (hy : y ≠ "") (hne : (∃ c, last = some c) → y ≠ x)
    (hid : a.id = .str y) (hdoc : toLatticeDoc S.float S.ciphers a = .ok doc) :
    Runs (stored (putArtifact doc true changed)) n (fun _ => Stands M objects x last ref) fun _ => True := by
  refine runs_stored ((putArtifact_writes doc true changed h.idle).mono ?_ fun _ _ => trivial)
  rintro - n' ⟨hput, hn⟩
  have hdocId := toLatticeDoc_id hdoc hid
  refine ⟨hn, Named.putDone hput hdocId hy h.named, fun c hc => ?_⟩
  obtain ⟨r, hr, hrest⟩ := h.row c hc
  exact ⟨r, hput.frame hdocId (hne ⟨c, hc⟩) hr, hrest⟩

include hf hS in
theorem updateEntity_own (h : Kept M objects x last n) (hx : x ≠ "") (ha : Member M objects' x c a) :
    Runs (S.updateEntity a) n (fun _ => Stands M objects' x (some c) fun _ v => v = a.contentRef) fun _ => True := by
  refine runs_bind (runs_get (runs_bind (runs_ofPy (fun doc hdoc => ?_) trivial)))
  refine runs_bind (runs_ofPy (fun changed _ => ?_) trivial)
  exact runs_bind ((put_own hf hS h hx ha hdoc).imp fun _ _ h => runs_pure h)

theorem updateEntity_other (h : Stands M objects x last ref n) (hy : y ≠ "") (hne : (∃ c, last = some c) → y ≠ x)
    (hid : a.id = .str y) : Runs (S.updateEntity a) n (fun _ => Stands M objects x last ref) fun _ => True := by
  refine runs_bind (runs_get (runs_bind (runs_ofPy (fun doc hdoc => ?_) trivial)))
  refine runs_bind (runs_ofPy (fun changed _ => ?_) trivial)
  exact runs_bind ((put_other h hy hne hid hdoc).imp fun _ _ h => runs_pure h)

include hf hS in
theorem createEntity_own (h : Kept M objects x last n) (hx : x ≠ "")
    (ha : Member M objects' x c (inheritOriginRoot n.db a)) :
    Runs (S.createEntity a) n (fun b n' => b = inheritOriginRoot n.db a ∧ Kept M objects' x (some c) n')
      fun _ => True := by
  refine runs_bind (runs_get (runs_bind (runs_ofPy (fun doc hdoc => ?_) trivial)))
  exact runs_bind ((put_own hf hS h hx ha hdoc).imp fun _ _ h => runs_pure ⟨rfl, h.kept⟩)

theorem inheritOriginRoot_id (db : Store) (a : Artifact) : (inheritOriginRoot db a).id = a.id := by
  unfold inheritOriginRoot
  dsimp only
  split_ifs
  · rfl
  · rfl
  · rfl
  · split <;> rfl

theorem createEntity_other (h : Kept M objects x last n) (hy : y ≠ "") (hne : (∃ c, last = some c) → y ≠ x)
    (hid : a.id = .str y) :
    Runs (S.createEntity a) n (fun b n' => b = inheritOriginRoot n.db a ∧ Kept M objects x last n') fun _ => True := by
  refine runs_bind (runs_get (runs_bind (runs_ofPy (fun doc hdoc => ?_) trivial)))
  have hid' : (inheritOriginRoot n.db a).id = .str y := (inheritOriginRoot_id n.db a).trans hid
  exact runs_bind ((put_other h hy hne hid' hdoc).imp fun _ _ h => runs_pure ⟨rfl, h⟩)

end Put

/-! ### Links and grants -/

section Around

variable {K : Caller}

theorem placeMember_kept (h : Kept M objects x last n) (c r : String) (orderKey : Option String) :
    Runs (Caller.placeMember c r orderKey) n (fun _ => Kept M objects x last) fun _ => True := by
  refine runs_bind (runs_get (runs_bind (runs_ofAccess (fun key _ => ?_) trivial)))
  obtain ⟨hlinked, hn⟩ := addArtifactToCollection_linked c r (orderKey.getD (afterKey key)) n h.idle
  refine runs_bind (runs_stored ((runs_of_endsAt (P := fun n' => Kept M objects x last n') ?_).mono
    (fun _ _ h => runs_pure h) fun _ _ => trivial))
  exact h.of_vertex hlinked.vertex hn

theorem linkToTarget_kept (h : Kept M objects x last n) :
    Kept M objects x last (linkToTarget now userId rootId n t) := by
  unfold linkToTarget
  split
  · obtain ⟨hlinked, hn⟩ := addArtifactToCollection_linked t rootId (afterKey _) n h.idle
    exact h.of_vertex hlinked.vertex hn
  · exact h

theorem workspace_runs (ws : String) (required : Action) :
    Runs (K.workspace ws required) n (fun a n' => n' = n ∧ K.serving.entity (docOf n.db ws) = .ok (some a))
      fun _ => True := by
  refine runs_bind (runs_get (runs_bind (runs_ofPy (fun entity hentity => ?_) trivial)))
  cases entity with
  | none => exact runs_http trivial
  | some a => exact runs_bind (runs_ofAccess (fun _ _ => runs_pure ⟨rfl, hentity⟩) trivial)

theorem linkMember_kept (h : Kept M objects x last n) (c r : String) :
    Runs (K.linkMember c r) n (fun _ => Kept M objects x last) fun _ => True := by
  refine runs_bind ((workspace_runs c .read).imp ?_)
  rintro ws n' ⟨rfl, -⟩
  refine runs_bind (runs_ofPy (fun ctx _ => ?_) trivial)
  refine runs_bind (runs_get (runs_bind (runs_ofAccess (fun n₁ hn₁ => ?_) trivial)))
  obtain ⟨ids, -, he⟩ := Mantle.bind_ok hn₁
  cases he
  change Kept M objects x last (ids.foldl (linkToTarget K.now K.userId r) n')
  clear hn₁
  induction ids generalizing n' with
  | nil => exact h
  | cons t ids ih => exact ih (linkToTarget K.now K.userId r n' t) (linkToTarget_kept h)

theorem runs_caught {m : ServiceM PUnit} {P : Node → Prop} {E : Node → Prop} (h : Runs m n (fun _ => P) P) :
    Runs (tryCatch m fun _ => pure ⟨⟩) n (fun _ => P) E := by
  unfold Runs at h ⊢
  simp only [tryCatch, tryCatchThe, MonadExceptOf.tryCatch, EStateM.tryCatch]
  cases hm : m n with
  | ok _ n' =>
    rw [hm] at h
    exact h
  | error e n' =>
    rw [hm] at h
    exact h

theorem putGrant_kept {g : GrantAttrs} (hg : g "id" = .str y) (hy : y ≠ "") (hne : (∃ c, last = some c) → y ≠ x)
    (h : Kept M objects x last n) :
    Runs (putGrant g) n (fun _ => Kept M objects x last) (Kept M objects x last) := by
  refine (putGrant_tables g h.idle).mono ?_ fun n' hn' => h.of_vertex hn'.1.vertex hn'.2
  rintro - n' ⟨⟨id, hid, hst⟩, hn'⟩
  obtain rfl := Val.str.inj (hg.symm.trans hid)
  have hrow : ∀ z r, n'.db.vertex.lookup z = some r → z ≠ "" ∧ r.doc.val.get "id" = .str z := by
    intro z r hr
    by_cases hz : z = y
    · subst hz
      obtain ⟨d, hd, hfields⟩ := hst.row
      obtain ⟨r', hr', he⟩ := Option.bind_eq_some_iff.mp hd
      obtain rfl := Option.some.inj (hr.symm.trans hr')
      split_ifs at he
      obtain rfl := Option.some.inj he
      refine ⟨hy, ?_⟩
      unfold Doc.get
      rw [hfields "id" (by decide) (by decide), GrantAttrs.toDoc_find? g (by decide), hid]
      rfl
    · rw [hst.others z hz] at hr
      exact h.named z r hr
  refine ⟨hn', hrow, fun c hc => ?_⟩
  rw [hst.others x (hne ⟨c, hc⟩).symm]
  exact h.row c hc

theorem upsertUserCollectionGrant_kept {r : String} {flags : Action → Bool} (hp : p.id ≠ "" ∧ p.id ≠ x)
    (h : Kept M objects x last n) :
    Runs (upsertUserCollectionGrant now p userId r flags) n (fun _ => Kept M objects x last) (Kept M objects x last) := by
  have hput : ∀ g : GrantAttrs, ∀ y, g "id" = .str y → y ≠ "" → ((∃ c, last = some c) → y ≠ x) →
      Runs (do
        let _ ← stored (putGrant g)
        pure ⟨⟩ : ServiceM PUnit) n (fun _ => Kept M objects x last) (Kept M objects x last) := fun g y hg hy hne =>
    runs_bind (runs_stored ((putGrant_kept hg hy hne h).imp fun _ _ h => runs_pure h))
  refine runs_bind (runs_get (runs_bind (runs_ofAccess (fun held hheld => ?_) h)))
  cases hfind : held.find? fun g => (g "grantee_type").eqStr "user" with
  | none => exact hput _ p.id rfl hp.1 fun _ => hp.2
  | some g =>
    refine runs_ite (fun _ => runs_pure h) fun _ => ?_
    obtain ⟨d, hd, hfrom⟩ := (mapM_ok hheld g).mp (List.mem_of_find?_eq_some hfind)
    obtain ⟨hdocs, hforce⟩ := List.mem_filter.mp hd
    obtain ⟨-, y, hat, -⟩ := mem_grantDocsBy.mp hdocs
    obtain ⟨row, hrow, he⟩ := Option.bind_eq_some_iff.mp hat
    split_ifs at he
    obtain rfl := Option.some.inj he
    obtain ⟨hy, hid⟩ := h.named y row hrow
    refine hput _ y ?_ hy ?_
    · obtain ⟨effect, -, rfl⟩ := Mantle.map_ok hfrom
      show (if "id" = "effect" then .str effect else (row.doc.val.find? "id").getD (grantDefault "id")) = .str y
      rw [if_neg (by decide)]
      unfold Doc.get at hid
      cases hfid : row.doc.val.find? "id" with
      | none =>
        rw [hfid] at hid
        cases hid
      | some v =>
        rw [hfid] at hid
        exact hid
    · -- a grant in force has a state that no artifact has
      rintro ⟨c, hc⟩ rfl
      obtain ⟨r', hr', hkept, -⟩ := h.row c hc
      obtain rfl := Option.some.inj (hrow.symm.trans hr')
      obtain ⟨st, hst, hne⟩ := hkept.state
      unfold inForce at hforce
      rw [hst] at hforce
      simp [Val.eqStr, hne] at hforce

theorem grantOwner_kept (hp : p.id ≠ "" ∧ p.id ≠ x) (r : String) (h : Kept M objects x last n) :
    Runs (K.grantOwner r p) n (fun _ => Kept M objects x last) fun _ => True :=
  runs_caught (upsertUserCollectionGrant_kept hp h)

end Around

/-! ### The calls -/

/-- What a call that returned `a` leaves: the row of the artifact as it was, or with the body that the call gave. -/
def Landed (M : Media) (objects objects' : Objects) (x : String) (last : Option String) (db : Store)
    (given : Option String) (C : Prop) (a : Artifact) (n : Node) : Prop :=
  ∃ y, y ≠ "" ∧ a.id = .str y ∧ (y ≠ x → Kept M objects x last n) ∧ (y = x → C →
    Kept M objects' x (if docOf db x = none then some (given.getD "") else last.map fun c => given.getD c) n)

theorem runs_true {α : Type} {m : ServiceM α} : Runs m n (fun _ _ => True) fun _ => True := by
  unfold Runs
  split <;> trivial

section Calls

variable (hf : ∀ t, ReadsFloat M.float (M.float t)) (hsha : Function.Injective M.sha256) (hx : x ≠ "") {K : Caller}
  (hS : Served M objects K.serving) {given : Option String} {C : Prop}

theorem entity_docOf_id (h : Kept M objects x last n) (ha : S.entity (docOf n.db y) = .ok (some a)) :
    y ≠ "" ∧ a.id = .str y := by
  obtain ⟨d, hd, hread⟩ := entity_some ha
  obtain ⟨r, hr, rfl⟩ := docOf_row hd
  obtain ⟨hy, hid⟩ := h.named y r hr
  exact ⟨hy, fromLatticeDoc_id hread hid hy⟩

theorem landed_same (h : Kept M objects x last n) (hy : y ≠ "") (hid : a.id = .str y) (hdoc : docOf n.db y ≠ none)
    (hown : y = x → C → ∀ c, last = some c → given.getD c = c ∧ Follows M objects objects' x c) :
    Landed M objects objects' x last n.db given C a n := by
  refine ⟨y, hy, hid, fun _ => h, ?_⟩
  rintro rfl hC
  rw [if_neg hdoc]
  cases last with
  | none => exact h.follows fun c hc => (nomatch hc)
  | some c =>
    obtain ⟨hsame, hfollow⟩ := hown rfl hC c rfl
    rw [Option.map_some, hsame]
    refine h.follows fun c' hc => ?_
    cases hc
    exact hfollow

include hf hx hS in
theorem updateEntity_landed (h : Kept M objects x last n) (hy : y ≠ "") (hid : a.id = .str y)
    (hdoc : docOf n.db y ≠ none) (hown : y = x → C → ∀ c, last = some c → Member M objects' x (given.getD c) a) :
    Runs (K.serving.updateEntity a) n (fun _ => Landed M objects objects' x last n.db given C a) fun _ => True := by
  by_cases hyx : y = x
  · subst hyx
    by_cases hC : C
    · cases last with
      | none =>
        refine (updateEntity_other h hy (fun ⟨c, hc⟩ => (nomatch hc)) hid).imp ?_
        intro _ n' hn'
        refine ⟨y, hy, hid, fun hne => absurd rfl hne, fun _ _ => ?_⟩
        rw [if_neg hdoc]
        exact hn'.follows fun c hc => (nomatch hc)
      | some c =>
        refine (updateEntity_own hf hS h hx (hown rfl hC c rfl)).imp ?_
        intro _ n' hn'
        refine ⟨y, hy, hid, fun hne => absurd rfl hne, fun _ _ => ?_⟩
        rw [if_neg hdoc]
        exact hn'.kept
    · exact runs_true.mono (fun _ n' _ => ⟨y, hy, hid, fun hne => absurd rfl hne, fun _ hC' => absurd hC' hC⟩)
        fun _ h => h
  · refine (updateEntity_other h hy (fun _ => hyx) hid).imp ?_
    intro _ n' hn'
    exact ⟨y, hy, hid, fun _ => hn', fun he => absurd he hyx⟩

theorem newId_fresh (rootId : Option String)
    (huuid : K.serving.clock.uuid ≠ "" ∧ docOf db K.serving.clock.uuid = none) :
    K.newId db rootId ≠ "" ∧ docOf db (K.newId db rootId) = none := by
  unfold Caller.newId
  cases rootId with
  | none => exact huuid
  | some r =>
    dsimp only
    split_ifs with hr
    · exact hr
    · exact huuid

include hf hsha hx hS in
theorem create_landed (h : Kept M objects x last n) {c : Creation}
    (huuid : K.serving.clock.uuid ≠ "" ∧ docOf n.db K.serving.clock.uuid = none)
    (hgrant : c.grant.id ≠ "" ∧ c.grant.id ≠ x) (hclear : C → CreationClear M objects' x K n.db ws c) :
    Runs (K.createWorkspaceArtifact ws c) n (fun a n' =>
      Landed M objects objects' x last n.db (some c.content) C a n' ∧ a.id = .str (K.newId n.db c.rootId) ∧
        (a.id = .str x → C → Member M objects' x c.content a)) fun _ => True := by
  obtain ⟨hidne, hidfree⟩ := newId_fresh c.rootId huuid
  unfold Caller.createWorkspaceArtifact
  refine runs_bind ((workspace_runs ws .create).imp ?_)
  rintro wsA n' ⟨rfl, hent⟩
  have hws := (entity_docOf_id h hent).1
  refine runs_bind (runs_get (runs_bind (runs_ofPy (fun context hctx => ?_) trivial)))
  refine runs_bind (runs_ofPy (fun placed hplaced => ?_) trivial)
  -- the rest of the call goes by the row
  have hrest : ∀ {objects₁ : Objects} {last₁ : Option String} {b : Artifact} {n₁ : Node} {P : Artifact → Node → Prop},
      Kept M objects₁ x last₁ n₁ → (∀ n₂, Kept M objects₁ x last₁ n₂ → P b n₂) →
      Runs (do
        Caller.placeMember ws b.rootId.pyStr c.orderKey
        K.linkMember ws b.rootId.pyStr
        K.grantOwner b.rootId.pyStr c.grant
        pure b : ServiceM Artifact) n₁ P fun _ => True := by
    intro objects₁ last₁ b n₁ P h₁ hP
    refine runs_bind ((placeMember_kept h₁ ws _ c.orderKey).imp ?_)
    intro _ n₂ h₂
    refine runs_bind ((linkMember_kept h₂ ws _).imp ?_)
    intro _ n₃ h₃
    refine runs_bind ((grantOwner_kept hgrant _ h₃).imp ?_)
    intro _ n₄ h₄
    exact runs_pure (hP n₄ h₄)
  have hbid : (inheritOriginRoot n'.db (K.newMember ws (K.newId n'.db c.rootId) c placed.1 placed.2)).id =
      .str (K.newId n'.db c.rootId) := inheritOriginRoot_id _ _
  by_cases hid : K.newId n'.db c.rootId = x
  · rw [hid] at hidfree hbid ⊢
    by_cases hC : C
    · have hmember := newMember_member hf hsha hS rfl hws (hclear hC) hctx (hid ▸ hplaced)
      refine runs_bind ((createEntity_own hf hS h hx hmember).imp ?_)
      rintro b n₁ ⟨rfl, h₁⟩
      refine hrest h₁ fun n₂ h₂ => ⟨⟨x, hx, hbid, fun hne => absurd rfl hne, fun _ _ => ?_⟩, hbid, fun _ _ => hmember⟩
      rw [if_pos hidfree]
      exact h₂
    · refine runs_bind (runs_bind (runs_get (runs_bind (runs_ofPy (fun _ _ => ?_) trivial))))
      refine runs_bind (runs_true.imp fun _ n₁ _ => runs_pure ?_)
      refine runs_bind (runs_true.imp fun _ n₂ _ => ?_)
      refine runs_bind (runs_true.imp fun _ n₃ _ => ?_)
      refine runs_bind (runs_true.imp fun _ n₄ _ => runs_pure ?_)
      exact ⟨⟨x, hx, hbid, fun hne => absurd rfl hne, fun _ hC' => absurd hC' hC⟩, hbid,
        fun _ hC' => absurd hC' hC⟩
  · refine runs_bind ((createEntity_other h hidne (fun _ => hid) rfl).imp ?_)
    rintro b n₁ ⟨rfl, h₁⟩
    refine hrest h₁ fun n₂ h₂ => ⟨⟨_, hidne, hbid, fun _ => h₂, fun he => absurd he hid⟩, hbid, fun he => ?_⟩
    exact absurd (Val.str.inj (hbid.symm.trans he)) hid

theorem Member.stamped (h : Member M objects x c a) : Member M objects x c (K.stamped a) :=
  ⟨⟨h.id, h.state, h.owned, h.context, h.clean, h.name, h.description, h.root, h.creator, h.encrypted⟩, h.content,
    h.address⟩

theorem Member.archived (h : Member M objects x c a) :
    Member M objects x c (K.stamped { a with state := stateArchived }) :=
  ⟨⟨h.id, .inr rfl, h.owned, h.context, h.clean, h.name, h.description, h.root, h.creator, h.encrypted⟩, h.content,
    h.address⟩

theorem Member.restored (h : Member M objects x c a) : Member M objects x c (K.stamped
    { a with state := stateLive, trashedBy := .none, trashedTime := .none, trashedFrom := .none }) :=
  ⟨⟨h.id, .inl rfl, h.owned, h.context, h.clean, h.name, h.description, h.root, h.creator, h.encrypted⟩, h.content,
    h.address⟩

theorem refuseCombined_runs :
    Runs (Caller.refuseCombined e) n (fun _ n' => n' = n ∧ e.content = none) fun _ => True := by
  refine runs_ite (fun _ => runs_http trivial) fun hno => runs_pure ⟨rfl, ?_⟩
  unfold Edit.combined at hno
  simp only [Bool.or_eq_true, not_or, Bool.not_eq_true] at hno
  simpa using hno.1.1.1.1.1.2

theorem refuseSuperseded_runs (target : Artifact) :
    Runs (Caller.refuseSuperseded target) n (fun _ n' => n' = n) fun _ => True := by
  refine runs_bind (runs_get ?_)
  dsimp only
  split
  · exact runs_http trivial
  · split
    · exact runs_ite (fun _ => runs_pure rfl) fun _ => runs_http trivial
    · exact runs_pure rfl

include hf hx hS

theorem restated_landed (h : Kept M objects x last n) (ha : EntityOf K.serving n.db a) {b : Artifact}
    (hb : ∀ c, Member M objects x c a → Member M objects x c b) (hid : b.id = a.id)
    (hfollow : C → ∀ c, last = some c → Follows M objects objects' x c) :
    Runs (K.serving.updateEntity b) n (fun _ => Landed M objects objects' x last n.db none C b) fun _ => True := by
  obtain ⟨y, hy, haid, hdoc, hread⟩ := entityOf_read hf hx h hS ha
  refine updateEntity_landed hf hx hS h hy (hid.trans haid) hdoc fun hyx hC c hc => ?_
  exact (hb c (hread hyx c hc).member).follows (hfollow hC c hc)

theorem toggled_landed (h : Kept M objects x last n) (ha : EntityOf K.serving n.db a)
    (hfollow : C → ∀ c, last = some c → Follows M objects objects' x (e.content.getD c)) :
    Runs (do
      Caller.refuseCombined e
      K.archiveEntity a) n (fun b => Landed M objects objects' x last n.db e.content C b) (fun _ => True) ∧
    Runs (do
      Caller.refuseCombined e
      K.restoreEntity a) n (fun b => Landed M objects objects' x last n.db e.content C b) fun _ => True := by
  constructor
  · refine runs_bind (refuseCombined_runs.imp ?_)
    rintro - n' ⟨rfl, hnone⟩
    rw [hnone] at hfollow ⊢
    refine runs_bind ((restated_landed hf hx hS h ha (fun c hm => hm.archived) rfl hfollow).imp ?_)
    intro _ n' hn'
    exact runs_pure hn'
  · refine runs_bind (refuseCombined_runs.imp ?_)
    rintro - n' ⟨rfl, hnone⟩
    rw [hnone] at hfollow ⊢
    refine runs_bind ((refuseSuperseded_runs a).imp ?_)
    rintro - n' rfl
    refine runs_bind ((restated_landed hf hx hS h ha (fun c hm => hm.restored) rfl hfollow).imp ?_)
    intro _ n' hn'
    exact runs_pure hn'

include hsha

theorem update_landed (h : Kept M objects x last n) {artifactId : String}
    (hclear : C → ∀ c, last = some c → EditClear M objects' x c K.serving (storedContext M x n.db) e ∧
      Follows M objects objects' x (e.content.getD c)) :
    Runs (K.updateMember ws artifactId e) n (fun b => Landed M objects objects' x last n.db e.content C b)
      fun _ => True := by
  have hfollow : C → ∀ c, last = some c → Follows M objects objects' x (e.content.getD c) :=
    fun hC c hc => (hclear hC c hc).2
  refine runs_bind (runs_get (runs_bind (runs_ofPy (fun workspace _ => ?_) trivial)))
  refine runs_ite (fun _ => runs_http trivial) fun _ => runs_bind (runs_ofPy (fun target htarget => ?_) trivial)
  cases target with
  | none => exact runs_http trivial
  | some a =>
    have ha : EntityOf K.serving n.db a := targetOf_entityOf htarget
    obtain ⟨harchive, hrestore⟩ := toggled_landed hf hx hS h ha hfollow
    refine runs_ite (fun _ => harchive) fun _ => runs_ite (fun _ => ?_) fun _ => ?_
    · exact runs_ite (fun _ => hrestore) fun _ => runs_http trivial
    refine runs_bind ((editedVersion_runs ha).mono ?_ fun _ _ => trivial)
    rintro version n' ⟨rfl, hversion⟩
    obtain ⟨y, hy, hid, hdoc, hread⟩ := entityOf_read hf hx h hS hversion
    refine runs_bind (runs_ofPy (fun b hb => ?_) trivial)
    have hmember : y = x → C → ∀ c, last = some c → Member M objects' x (e.content.getD c) b.1 ∧
        (b.2 = false → ∀ t, e.content = some t → t = c) := by
      intro hyx hC c hc
      have hr := hread hyx c hc
      exact applyEdit_member hf hsha hS hr.member hr.located hr.same (hclear hC c hc).1 (hclear hC c hc).2 hb
    refine runs_ite (fun hsame => runs_pure ?_) fun _ => ?_
    · refine landed_same h hy hid hdoc fun hyx hC c hc => ?_
      have hlast : e.content.getD c = c := getD_same ((hmember hyx hC c hc).2 (by simp_all))
      exact ⟨hlast, hlast ▸ hfollow hC c hc⟩
    · have hbid : (K.stamped b.1).id = .str y := (applyEdit_id hb).trans hid
      refine runs_bind ((updateEntity_landed hf hx hS h hy hbid hdoc fun hyx hC c hc =>
        ((hmember hyx hC c hc).1).stamped).imp ?_)
      intro _ n' hn'
      exact runs_pure hn'

theorem upsert_landed (h : Kept M objects x last n) {w : IdentityWrite}
    (huuid : K.serving.clock.uuid ≠ "" ∧ docOf n.db K.serving.clock.uuid = none)
    (hgrant : w.grant.id ≠ "" ∧ w.grant.id ≠ x)
    (hcreate : C → docOf n.db x = none → CreationClear M objects' x K n.db ws (w.creation rootId))
    (hclear : C → ∀ c, last = some c → EditClear M objects' x c K.serving (storedContext M x n.db)
      { callerContext := w.context, content := w.content } ∧ Follows M objects objects' x (w.content.getD c)) :
    Runs (K.upsertIdentityMember ws rootId w) n (fun b => Landed M objects objects' x last n.db w.content C b)
      fun _ => True := by
  refine runs_bind ((workspace_runs ws .create).imp ?_)
  rintro wsA n' ⟨rfl, -⟩
  refine runs_bind (runs_get (runs_bind (runs_ofPy (fun target htarget => ?_) trivial)))
  cases target with
  | some a =>
    obtain ⟨y, hy, hid, hdoc, hread⟩ := entityOf_read hf hx h hS (entityOf_latestLive htarget)
    refine runs_bind (runs_ofPy (fun b hb => ?_) trivial)
    have hbid : (K.stamped b).id = .str y := (overwritten_id hb).trans hid
    have hmember : y = x → C → ∀ c, last = some c → Member M objects' x (w.content.getD c) (K.stamped b) := by
      intro hyx hC c hc
      have hr := hread hyx c hc
      exact (overwritten_member hf hsha hS rfl hr.member hr.located hr.same (hclear hC c hc).1 (hclear hC c hc).2
        hb).stamped
    refine runs_bind ((updateEntity_landed hf hx hS h hy hbid hdoc hmember).imp ?_)
    intro _ n' hn'
    exact runs_pure hn'
  | none =>
    have hcreated := create_landed hf hsha hx hS (C := C ∧ docOf n'.db x = none) h (c := w.creation rootId) huuid
      hgrant fun hC => hcreate hC.1 hC.2
    refine runs_bind (hcreated.imp ?_)
    rintro b n₁ ⟨⟨y, hy, hid, hother, hown⟩, hnew, hmember⟩
    have hdescribed : ∀ {d : Artifact} {c : String}, Member M objects' x c d → Member M objects' x c
        (K.stamped { d with description := (w.description.map .str).getD d.description }) := by
      intro d c hd
      refine ⟨⟨hd.id, hd.state, hd.owned, hd.context, hd.clean, hd.name, ?_, hd.root, hd.creator, hd.encrypted⟩, hd.content,
        hd.address⟩
      cases w.description with
      | none => exact hd.description
      | some t => exact .inr ⟨t, rfl⟩
    by_cases hyx : y = x
    · subst hyx
      have hfree : docOf n'.db y = none := by
        obtain rfl := Val.str.inj (hnew.symm.trans hid)
        exact (newId_fresh _ huuid).2
      by_cases hC : C
      · refine runs_bind ((updateEntity_own hf hS (hown rfl ⟨hC, hfree⟩) hx (hdescribed (hmember hid ⟨hC, hfree⟩))).mono
          ?_ fun _ h => h)
        intro _ n₂ h₂
        refine runs_pure ⟨y, hy, hid, fun hne => absurd rfl hne, fun _ _ => ?_⟩
        rw [if_pos hfree]
        exact h₂.kept
      · refine runs_bind (runs_true.imp fun _ n₂ _ => runs_pure ?_)
        exact ⟨y, hy, hid, fun hne => absurd rfl hne, fun _ hC' => absurd hC' hC⟩
    · have hbid : (K.stamped { b with description := (w.description.map .str).getD b.description }).id = .str y := hid
      refine runs_bind ((updateEntity_other (hother hyx) hy (fun _ => hyx) hbid).imp ?_)
      intro _ n₂ h₂
      exact runs_pure ⟨y, hy, hid, fun _ => h₂, fun he => absurd he hyx⟩

omit hf hsha hx hS in
theorem rewritten_other {K' : Caller} (h : Kept M objects x last n) (hne : (∃ c, last = some c) → ws ≠ x) (v : Val) :
    Runs (K'.updateWorkspaceContext ws v) n (fun _ => Kept M objects x last) fun _ => True := by
  refine runs_bind ((workspace_runs ws .update).imp ?_)
  rintro a n' ⟨rfl, hent⟩
  obtain ⟨hws, hid⟩ := entity_docOf_id h hent
  refine runs_bind (runs_ofPy (fun text _ => ?_) trivial)
  exact updateEntity_other h hws hne hid

omit hf hsha hx hS in
theorem editWorkspace_runs {P : Artifact × Bool → Node → Prop} {Q : Artifact → Node → Prop}
    (hwrite : ∀ b, K.editedWorkspace e a = .ok b →
      Runs (K.serving.updateEntity { b.1 with modifiedTime := .str K.serving.clock.now }) n (fun _ => P b) fun _ => True)
    (hskip : ∀ b, K.editedWorkspace e a = .ok b → b.2 = false → P b n)
    (hnone : ∀ b n₁ d, K.editedWorkspace e a = .ok b → P b n₁ → d.id = b.1.id → Q d n₁)
    (hsome : ∀ b n₁ v, K.editedWorkspace e a = .ok b → P b n₁ → K.workspaceUpdate e b.1 = .ok (some v) →
      Runs (({ K with serving := after } : Caller).updateWorkspaceContext ws (K.givenContext v)) n₁
        (fun _ n₂ => ∀ d, after.entity (docOf n₂.db ws) = .ok (some d) → Q d n₂) fun _ => True) :
    Runs (K.editWorkspace after ws e a) n Q fun _ => True := by
  unfold Caller.editWorkspace
  refine runs_bind (runs_ofPy (fun b hb => ?_) trivial)
  dsimp only
  refine runs_guarded (P := P b) (fun n₁ h₁ => ?_) (fun _ => hwrite b hb) fun hw => hskip b hb ?_
  · refine runs_bind (runs_ofPy (fun context hcontext => ?_) trivial)
    cases context with
    | none =>
      refine runs_pure (hnone b n₁ _ hb h₁ ?_)
      split_ifs <;> rfl
    | some v =>
      refine runs_bind ((hsome b n₁ v hb h₁ hcontext).imp ?_)
      intro _ n₂ h₂
      refine (workspace_runs ws .update).imp ?_
      rintro d n₃ ⟨rfl, hent⟩
      exact h₂ d hent
  · rw [Bool.not_eq_true, Bool.or_eq_false_iff] at hw
    exact hw.1

omit hf hsha hx hS in
theorem top_other (h : Kept M objects x last n) (hws : ws ≠ "") (hne : (∃ c, last = some c) → ws ≠ x)
    (hid : a.id = .str ws) :
    Runs (K.editWorkspace after ws e a) n (fun b n' => b.id = .str ws ∧ Kept M objects x last n') fun _ => True := by
  refine editWorkspace_runs (P := fun _ => Kept M objects x last) (fun b hb => ?_) (fun _ _ _ => h) ?_ ?_
  · exact updateEntity_other h hws hne ((editedWorkspace_id hb).trans hid)
  · intro b n₁ d hb h₁ hd
    exact ⟨hd.trans ((editedWorkspace_id hb).trans hid), h₁⟩
  · intro b n₁ v hb h₁ _
    refine (rewritten_other h₁ hne _).imp ?_
    intro _ n₂ h₂ d hd
    exact ⟨(entity_docOf_id h₂ hd).2, h₂⟩

omit hsha hS in
theorem rewritten_runs (hafter : Served M objects' after) (hK : K.serving.float = M.float) {r : Val}
    (h : Stands M objects' x (some c) (fun _ w => w = r) n)
    (hv : (∃ s, v = .str s) ∧ CleanContext M.float M.text (loadedContext M.float v) ∧
      (Addressed M objects' x c r (loadedContext M.float v) ∨ Unaddressed r (loadedContext M.float v))) :
    Runs (({ K with serving := after } : Caller).updateWorkspaceContext x (K.givenContext v)) n
      (fun _ => Kept M objects' x (some c)) fun _ => True := by
  obtain ⟨⟨s, rfl⟩, hclean, haddress⟩ := hv
  refine runs_bind ((workspace_runs x .update).imp ?_)
  rintro a n' ⟨rfl, hent⟩
  obtain ⟨y, -, hid, -, hread⟩ := entityOf_read hf hx h hafter (entityOf_docOf hent)
  obtain rfl := Val.str.inj ((entity_docOf_id h.kept hent).2.symm.trans hid)
  have hr := hread rfl c rfl
  have hgiven : K.givenContext (.str s) = .dict (loadedContext M.float (.str s)).toItems := by
    unfold Caller.givenContext
    rw [hK]
  rw [hgiven]
  dsimp only
  rw [docOfItems_toItems]
  refine runs_bind (runs_ofPy (fun text htext => ?_) trivial)
  refine (updateEntity_own hf hafter h.kept hx (rewritten_member hr.member (loadedContext_json hf _) hclean ?_ ?_
    htext)).imp fun _ _ h => h.kept
  · rw [hr.ref]
    exact haddress
  · split_ifs
    · exact .inl rfl
    · exact .inr rfl

theorem top_landed (h : Kept M objects x last n) (hafter : Served M objects' after)
    (hclear : C → ∀ c, last = some c → TopClear M objects' x c (storedContext M x n.db) e ∧
      Follows M objects objects' x (e.content.getD c)) :
    Runs (K.updateWorkspace after ws e) n (fun b => Landed M objects objects' x last n.db e.content C b)
      fun _ => True := by
  have hfollow : C → ∀ c, last = some c → Follows M objects objects' x (e.content.getD c) :=
    fun hC c hc => (hclear hC c hc).2
  refine runs_bind ((workspace_runs ws .update).imp ?_)
  rintro a n' ⟨rfl, hent⟩
  have ha : EntityOf K.serving n'.db a := entityOf_docOf hent
  obtain ⟨hws, hid⟩ := entity_docOf_id h hent
  obtain ⟨harchive, hrestore⟩ := toggled_landed hf hx hS h ha hfollow
  refine runs_ite (fun _ => harchive) fun _ => runs_ite (fun _ => ?_) fun _ => ?_
  · exact runs_ite (fun _ => hrestore) fun _ => runs_http trivial
  by_cases hwx : ws = x
  · subst hwx
    have hdoc : docOf n'.db ws ≠ none := by
      obtain ⟨d, hd, -⟩ := entity_some hent
      rw [hd]
      exact Option.some_ne_none d
    -- the id of what is returned, whatever the call meets
    have huntracked : Kept M objects ws none n' := ⟨h.idle, h.named, fun c hc => (nomatch hc)⟩
    have hids : Runs (K.editWorkspace after ws e a) n' (fun b _ => b.id = .str ws) fun _ => True :=
      (top_other huntracked hws (fun ⟨c, hc⟩ => (nomatch hc)) hid).imp fun _ _ h => h.1
    cases last with
    | none =>
      refine (top_other h hws (fun ⟨c, hc⟩ => (nomatch hc)) hid).imp ?_
      rintro b n₁ ⟨hbid, h₁⟩
      refine ⟨ws, hws, hbid, fun hne => absurd rfl hne, fun _ _ => ?_⟩
      rw [if_neg hdoc]
      exact h₁.follows fun c hc => (nomatch hc)
    | some c =>
      by_cases hC : C
      · have hedited : Runs (K.editWorkspace after ws e a) n'
            (fun _ n₁ => Kept M objects' ws (some (e.content.getD c)) n₁) fun _ => True := by
          obtain ⟨r, hr, hkept, -⟩ := h.row c rfl
          have hstands : Stands M objects ws (some c) (fun _ v => v = r.doc.val.get "content_ref") n' := by
            refine ⟨h.idle, h.named, fun c' hc => ?_⟩
            cases hc
            exact ⟨r, hr, hkept, rfl⟩
          obtain ⟨y, -, hyid, -, hread⟩ := entityOf_read hf hx hstands hS ha
          obtain rfl := Val.str.inj (hid.symm.trans hyid)
          have hread := hread rfl c rfl
          obtain ⟨hclear, hfollow⟩ := hclear hC c rfl
          have hmember := fun b hb =>
            @editedWorkspace_member M objects objects' ws c a K.serving hf hsha hS K rfl e b hread.member hclear.found hfollow hb
          refine editWorkspace_runs (P := fun b => Stands M objects' ws (some (e.content.getD c))
            fun _ v => v = b.1.contentRef) ?_ ?_ ?_ ?_
          · intro b hb
            have hm := (hmember b hb).1
            exact updateEntity_own hf hS h hx ⟨⟨hm.id, hm.state, hm.owned, hm.context, hm.clean, hm.name,
              hm.description, hm.root, hm.creator, hm.encrypted⟩, hm.content, hm.address⟩
          · intro b hb hclean
            obtain ⟨-, href, hsame⟩ := hmember b hb
            rw [getD_same (hsame hclean)] at hfollow ⊢
            rw [href (hsame hclean), hread.ref]
            refine hstands.follows fun c' hc => ?_
            cases hc
            exact hfollow
          · exact fun b n₁ d _ h₁ _ => h₁.kept
          · intro b n₁ v hb h₁ hv
            obtain ⟨hm, href, -⟩ := hmember b hb
            have hlocated : (∀ t, e.content = some t → t = c) →
                Addressed M objects' ws (e.content.getD c) b.1.contentRef (storedContext M ws n'.db) ∨
                  Unaddressed b.1.contentRef (storedContext M ws n'.db) := by
              intro hsame
              rw [href hsame]
              rw [getD_same hsame] at hfollow ⊢
              exact hread.located.imp_left fun hl => hl.follows hfollow
            exact (rewritten_runs hf hx hafter hS.float h₁
              (workspaceUpdate_kept hf hS rfl hclear hm hlocated hv)).imp fun _ _ h => fun _ _ => h
        refine (hids.and hedited).mono ?_ fun _ _ => trivial
        rintro b n₁ ⟨hbid, h₁⟩
        refine ⟨ws, hws, hbid, fun hne => absurd rfl hne, fun _ _ => ?_⟩
        rw [if_neg hdoc]
        exact h₁
      · refine hids.imp ?_
        intro b n₁ hbid
        exact ⟨ws, hws, hbid, fun hne => absurd rfl hne, fun _ hC' => absurd hC' hC⟩
  · refine (top_other h hws (fun _ => hwx) hid).imp ?_
    rintro b n' ⟨hbid, h'⟩
    exact ⟨ws, hws, hbid, fun _ => h', fun he => absurd he hwx⟩

end Calls

/-! ### Runs -/

section Run

variable {s : State} {e : Event}

theorem keyOf_inj {key : String} (h : KeyOf x key) (h' : KeyOf y key) (hx : '/' ∉ x.toList) (hy : '/' ∉ y.toList) :
    y = x := by
  have hlists : ∀ {u v : String}, '/' ∉ v.toList → ("/" ++ (u ++ ".content")).toList <:+ ("/" ++ (v ++ ".content")).toList →
      u = v := by
    intro u v hv hs
    simp only [String.toList_append] at hs
    have hslash : "/".toList = ['/'] := rfl
    rw [hslash, List.singleton_append, List.singleton_append, List.suffix_cons_iff] at hs
    rcases hs with heq | hs
    · exact String.toList_injective (List.append_cancel_right (List.cons.inj heq).2)
    · have hmem := hs.subset (List.mem_cons_self)
      rw [List.mem_append] at hmem
      rcases hmem with hmem | hmem
      · exact absurd hmem hv
      · exact absurd hmem (by decide)
  rcases List.suffix_or_suffix_of_suffix h h' with hs | hs
  · exact (hlists hy hs).symm
  · exact hlists hx hs

theorem Returns.step (h : Returns M x s e a n') : s.step x e = ⟨n', e.objects, s.lastAfter x e a⟩ := by
  unfold State.step
  rw [h.returned]

theorem Returns.follows (h : Returns M x s e a n') (c : String) :
    Follows M s.objects e.objects x (e.call.content.getD c) := by
  intro key blob _ hb
  rcases h.objects with hsame | ⟨y, key', blob', -, -, -, hgiven, hupdate⟩
  · exact .inl (hsame ▸ hb)
  · rw [hupdate, Function.update_apply] at hb
    split_ifs at hb with hkey
    · obtain rfl := Option.some.inj hb
      exact .inr (by rw [hgiven, Option.getD_some])
    · exact .inl hb

theorem Returns.others (h : Returns M x s e a n') (hslash : '/' ∉ x.toList) (hid : a.id = .str y) (hne : y ≠ x)
    (c : String) : Follows M s.objects e.objects x c := by
  intro key blob hkey hb
  rcases h.objects with hsame | ⟨z, key', blob', hz, hzs, hzk, -, hupdate⟩
  · exact .inl (hsame ▸ hb)
  · obtain rfl := Val.str.inj (hid.symm.trans hz)
    rw [hupdate, Function.update_apply] at hb
    split_ifs at hb with hk
    · subst hk
      exact absurd (keyOf_inj hkey hzk hslash hzs) hne
    · exact .inl hb

variable (hf : ∀ t, ReadsFloat M.float (M.float t)) (hsha : Function.Injective M.sha256) (hx : x ≠ "")

include hf hsha hx in
theorem Sound.step (hslash : '/' ∉ x.toList) (h : Kept M s.objects x s.last s.node) (hs : Sound M x s e) :
    Kept M (s.step x e).objects x (s.step x e).last (s.step x e).node := by
  obtain ⟨a, n', hret, hclear⟩ := hs
  have hlanded : Landed M s.objects e.objects x s.last s.node.db e.call.content (Clear M x s e) a n' := by
    obtain ⟨K, call, objects⟩ := e
    have hfollow := hret.follows
    have hrun := hret.returned
    cases call with
    | create ws c =>
      exact ((create_landed hf hsha hx hret.served h hret.uuid (hret.grant _ rfl) fun hC => hC).ok hrun).1
    | update ws y ed =>
      exact (update_landed hf hsha hx hret.served h fun hC c hc => ⟨hC c hc, hfollow c⟩).ok hrun
    | upsert ws root w =>
      exact (upsert_landed hf hsha hx hret.served h hret.uuid (hret.grant _ rfl) (fun hC => hC.1)
        fun hC c hc => ⟨hC.2 c hc, hfollow c⟩).ok hrun
    | top ws ed after =>
      exact (top_landed hf hsha hx hret.served h (hret.after ws ed after rfl) fun hC c hc => ⟨hC c hc, hfollow c⟩).ok hrun
  obtain ⟨y, hy, hid, hother, hown⟩ := hlanded
  rw [hret.step]
  unfold State.lastAfter
  by_cases hyx : y = x
  · subst hyx
    rw [if_pos (by rw [hid]; simp [Val.eqStr])]
    exact hown rfl (hclear hid)
  · rw [if_neg (by rw [hid]; simp [Val.eqStr, hyx])]
    exact (hother hyx).follows fun c _ => hret.others hslash hid hyx c

/-- **What was written last is what is read**, in every state of a run of sound calls. -/
theorem bodies_follow (M : Media) (hf : ∀ t, ReadsFloat M.float (M.float t)) (hsha : Function.Injective M.sha256)
    (x : String) (hx : x ≠ "") (hslash : '/' ∉ x.toList) (s : State) (hstart : Kept M s.objects x s.last s.node)
    (events : List Event) (hsound : Along (State.step x) (Sound M x) s events) (c : String)
    (hlast : (events.foldl (State.step x) s).last = some c) :
    (∀ S, Served M (events.foldl (State.step x) s).objects S → ∀ out,
      S.entity (docOf (events.foldl (State.step x) s).node.db x) = .ok out →
        ∃ a, out = some a ∧ a.content = .str c) ∧
      ∃ d, docOf (events.foldl (State.step x) s).node.db x = some d ∧
        d.get "content_ref" = (loadedContext M.float (d.get "context")).get "content_cas_ref" := by
  have hend := along_inv (fun (s : State) e (hs : Kept M s.objects x s.last s.node) hc =>
    hc.step hf hsha hx hslash hs) events s hstart hsound
  obtain ⟨r, hr, hkept, -⟩ := hend.row c hlast
  have hdoc := docOf_named hend.named hr
  refine ⟨fun S hS out hout => ?_, r.doc.val, hdoc, ?_⟩
  · rw [hdoc] at hout
    cases out with
    | none => exact absurd (entity_none hout) (by simp)
    | some a =>
      obtain ⟨d, hd, hread⟩ := entity_some hout
      cases hd
      exact ⟨a, rfl, (hkept.read hf hS hx hread).1.content⟩
  · rcases hkept.body.address with ⟨ref, key, href, -, hcas, -⟩ | ⟨hnone, hcas⟩
    · rw [href, Doc.get_of_find? hcas]
    · rw [hnone, hcas]

end Run

/-! ### A body that is emptied -/

def shelfMedia : Media := ⟨flatFloat, id, fun b => String.ofList b.toList.tail⟩

def openMark (b : String) : Option String :=
  if b.toList.head? = some 's' then some (String.ofList b.toList.tail) else none

def shelf (objects : Objects) (uuid : String) : Caller where
  serving :=
    { float := flatFloat
      ciphers := { markCipher with hydrate := getBytesDecrypted (fun _ _ b => openMark b) ⟨none, some objects⟩ }
      clock := ⟨uuid, "now"⟩
      sha256 := id
      putBytes := fun _ data _ owner _ _ =>
        (putBytesEncrypted id ⟨some ("s" ++ data), some true, some true⟩ data owner).map Prod.fst }
  now := fun _ => true
  userId := "u"
  auth := none

theorem shelf_served (objects : Objects) (uuid : String) : Served shelfMedia objects (shelf objects uuid).serving where
  float := rfl
  digest := rfl
  seals := by
    intro p s c t b h
    cases h
    simp [shelfMedia, String.toList_append]
  opens := by
    intro a p s v t h
    change markCipher.openBlob a p s v = .ok t at h
    cases v with
    | str b =>
      simp only [markCipher] at h
      split_ifs at h
      cases h
      exact ⟨b, rfl, rfl⟩
    | _ => cases h
  reads := by
    refine ⟨fun _ _ b => openMark b, ⟨none, some objects⟩, rfl, ?_, fun l r b hl => (by cases hl), ?_⟩
    · intro p s b t h
      change openMark b = some t at h
      unfold openMark at h
      split_ifs at h
      exact Option.some.inj h
    · intro o ho
      exact (Option.some.inj ho).symm
  stores := by
    intro key data ct owner collection creator
    refine ⟨⟨some ("s" ++ data), some true, some true⟩, ?_, rfl⟩
    intro b hb
    cases hb
    simp [shelfMedia, String.toList_append]

def shelfNode : Node := hereNode.run
  [.putArtifact [("id", .str "w")] true false,
   .putArtifact (grantDoc "g" "u" "w" "allow" ++ [("can_create", .bool true), ("can_read", .bool true)]) true false]

theorem shelfNode_named : Named shelfNode.db := by
  have hdocs : Documented shelfNode.db := documented_run _ _ _
    ⟨⟨rfl, fun _ hb => (nomatch hb), .inl rfl⟩, ⟨rfl, fun _ hb => (nomatch hb), .inr ⟨_, rfl⟩⟩, trivial⟩
  exact hdocs.named

def shelfStart : State := ⟨shelfNode, fun _ => none, none⟩

def oneObject : Objects := Function.update (fun _ => none) "artifacts/x.content" (some "sA")

def createsA : Event :=
  ⟨shelf (fun _ => none) "x", .create "w" { content := "A", minted := some [], grant := ⟨"grant", "now", none, none, none⟩ },
    oneObject⟩

def empties : Event := ⟨shelf oneObject "y", .update "w" "x" { content := some "" }, oneObject⟩

theorem shelfStart_kept : Kept shelfMedia shelfStart.objects "x" shelfStart.last shelfStart.node :=
  ⟨by decide +kernel, shelfNode_named, fun c hc => (nomatch hc)⟩

def returnedId : EStateM.Result ServiceErr Node Artifact → Option String
  | .ok a _ => a.id.asStr
  | .error _ _ => none

theorem asStr_some (h : v.asStr = some t) : v = .str t := by
  cases v <;> cases h
  rfl

theorem returnedId_some {out : EStateM.Result ServiceErr Node Artifact} (h : returnedId out = some y) :
    ∃ a n, out = .ok a n ∧ a.id = .str y := by
  cases out with
  | ok a n => exact ⟨a, n, rfl, asStr_some h⟩
  | error e n => cases h

/-- What the two calls answer and leave on the shelf. -/
theorem shelf_answers :
    returnedId (createsA.call.run createsA.caller shelfStart.node) = some "x" ∧
    (docOf shelfStart.node.db createsA.caller.serving.clock.uuid).isNone = true ∧
    ([createsA].foldl (State.step "x") shelfStart).last = some "A" ∧
    returnedId (empties.call.run empties.caller (shelfStart.step "x" createsA).node) = some "x" ∧
    (docOf (shelfStart.step "x" createsA).node.db empties.caller.serving.clock.uuid).isNone = true ∧
    ((shelfStart.step "x" createsA).step "x" empties).last = some "" ∧
    ((shelf oneObject "z").serving.entity (docOf ((shelfStart.step "x" createsA).step "x" empties).node.db "x")).toOption.bind
      (fun out => out.bind fun a => a.content.asStr) = some "A" := by
  decide +kernel

theorem createsA_returns : ∃ a n, Returns shelfMedia "x" shelfStart createsA a n := by
  obtain ⟨hcreated, hfree, -⟩ := shelf_answers
  obtain ⟨a, n, hrun, hid⟩ := returnedId_some hcreated
  refine ⟨a, n, hrun, shelf_served _ _, fun _ _ _ h => (nomatch h), ⟨by decide, ?_⟩, ?_, .inr ⟨"x", _, "sA", hid, by decide,
    ?_, by decide, rfl⟩⟩
  · exact Option.isNone_iff_eq_none.mp hfree
  · intro p hp
    cases hp
    exact ⟨by decide, by decide⟩
  · unfold KeyOf
    decide

theorem createsA_objects : (shelfStart.step "x" createsA).objects = oneObject := by
  obtain ⟨a, n, hret⟩ := createsA_returns
  rw [hret.step]
  rfl

theorem empties_returns : ∃ a n, Returns shelfMedia "x" (shelfStart.step "x" createsA) empties a n := by
  obtain ⟨-, -, -, hemptied, hfree, -⟩ := shelf_answers
  obtain ⟨a, n, hrun, hid⟩ := returnedId_some hemptied
  refine ⟨a, n, hrun, ?_, fun _ _ _ h => (nomatch h), ⟨by decide, ?_⟩, fun p hp => (nomatch hp), .inl ?_⟩
  · rw [createsA_objects]
    exact shelf_served _ _
  · exact Option.isNone_iff_eq_none.mp hfree
  · rw [createsA_objects]
    rfl

theorem bodies_stale : ¬∀ (M : Media) (x : String) (s : State) (events : List Event),
    (∀ t, ReadsFloat M.float (M.float t)) → Function.Injective M.sha256 → x ≠ "" → '/' ∉ x.toList →
      Kept M s.objects x s.last s.node → Along (State.step x) (fun s e => ∃ a n, Returns M x s e a n) s events →
        ∀ c, (events.foldl (State.step x) s).last = some c → ∀ S, Served M (events.foldl (State.step x) s).objects S →
          ∀ out, S.entity (docOf (events.foldl (State.step x) s).node.db x) = .ok out →
            ∃ a, out = some a ∧ a.content = .str c := by
  intro h
  have hreturns : Along (State.step "x") (fun s e => ∃ a n, Returns shelfMedia "x" s e a n) shelfStart
      [createsA, empties] := ⟨createsA_returns, empties_returns, trivial⟩
  have hrun := h shelfMedia "x" shelfStart [createsA, empties] flatFloat_reads (fun _ _ he => he) (by decide) (by decide)
    shelfStart_kept hreturns ""
  rw [List.foldl_cons, List.foldl_cons, List.foldl_nil] at hrun
  obtain ⟨-, -, -, -, -, hlast, hcontent⟩ := shelf_answers
  have hobjects : ((shelfStart.step "x" createsA).step "x" empties).objects = oneObject := by
    obtain ⟨a, n, hret⟩ := empties_returns
    rw [hret.step]
    rfl
  have hserved : Served shelfMedia ((shelfStart.step "x" createsA).step "x" empties).objects
      (shelf oneObject "z").serving := by
    rw [hobjects]
    exact shelf_served oneObject "z"
  have hread := hrun hlast _ hserved
  cases hout : (shelf oneObject "z").serving.entity
      (docOf ((shelfStart.step "x" createsA).step "x" empties).node.db "x") with
  | error e =>
    rw [hout] at hcontent
    cases hcontent
  | ok out =>
    obtain ⟨b, rfl, hb⟩ := hread out hout
    rw [hout] at hcontent
    have hA : b.content.asStr = some "A" := hcontent
    rw [hb] at hA
    exact absurd (Option.some.inj hA) (by decide)

theorem bodies_follow_createsA : ∃ d, docOf ([createsA].foldl (State.step "x") shelfStart).node.db "x" = some d ∧
    d.get "content_ref" = (loadedContext flatFloat (d.get "context")).get "content_cas_ref" := by
  obtain ⟨a, n, hret⟩ := createsA_returns
  have hcreated : createsA.caller.createdContext
      { content := "A", minted := some [], grant := ⟨"grant", "now", none, none, none⟩ } = .ok (.str "{}") := by
    rfl
  have hclear : CreationClear shelfMedia oneObject "x" createsA.caller shelfStart.node.db "w"
      { content := "A", minted := some [], grant := ⟨"grant", "now", none, none, none⟩ } := by
    refine ⟨fun v hv => ?_, .inl ?_, fun key blob hk hb => ?_⟩
    · rw [hcreated] at hv
      obtain rfl := Except.ok.inj hv
      have hload : loadedContext shelfMedia.float (.str "{}") = [] := by rfl
      rw [hload]
      exact ⟨⟨_, rfl⟩, ⟨rfl, rfl⟩, fun _ => rfl⟩
    · have hroot : ((((docOf shelfStart.node.db "w").getD []).get "origin_root").isNone) = true := by decide +kernel
      cases hget : ((docOf shelfStart.node.db "w").getD []).get "origin_root" with
      | none => rfl
      | _ =>
        rw [hget] at hroot
        cases hroot
    · unfold oneObject at hb
      rw [Function.update_apply] at hb
      split_ifs at hb
      obtain rfl := Option.some.inj hb
      rfl
  have hsound : Along (State.step "x") (Sound shelfMedia "x") shelfStart [createsA] :=
    ⟨⟨a, n, hret, fun _ => hclear⟩, trivial⟩
  obtain ⟨-, -, hlast, -⟩ := shelf_answers
  exact (bodies_follow shelfMedia flatFloat_reads (fun _ _ he => he) "x" (by decide) (by decide) shelfStart shelfStart_kept
    [createsA] hsound "A" hlast).2

end Bodies

end Mantle
