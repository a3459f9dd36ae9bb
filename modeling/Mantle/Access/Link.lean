import Mathlib.Data.String.Basic
import Mantle.Access.Ledger
import Mantle.Access.Scope
import Mantle.Db.Documented
import Mantle.Db.Reorder
import Mantle.Db.Watch

/-!
# Mantle.Access.Link — placing an artifact in a further container

A link writes an origin edge.  It gives nobody anything new over an artifact as long as no root on the artifact's line
gets its container from it and nothing joins the commons by it.
-/

namespace Mantle

open Run Tx Walk

variable {a : Action} {db₁ db₂ : Store} {leaf : ℕ} {o r row : ERow} {origin y : String} {seq : ℤ}
  {α : Type}

variable {c key x : String} {db : Store}

/-! ### The calls -/

def membershipEdges (db : Store) (collectionId : String) : Except AccessErr (List ERow) :=
  let rows := (db.edge.toPairs.filter fun e => e.2.src = collectionId).insertionSort fun a b => a.1 ≤ b.1
  if rows.length > edgesOfLimit then .error .edgesTruncated else .ok (rows.map Prod.snd)

/-- `get_last_order_key`: the greatest of the keys that are there. -/
def getLastOrderKey (db : Store) (collectionId : String) : Except AccessErr (Option String) :=
  (membershipEdges db collectionId).map fun rows =>
    ((rows.filterMap fun r => (edgeProp r r.orderKey "order_key").asStr).filter (· ≠ "")).max?

def membershipProps (orderKey rootId : String) (origin : Bool) : Doc :=
  [("order_key", .str orderKey), ("is_origin", .bool origin), ("propagate", .none), ("root_id", .str rootId)]

/-- `add_artifact_to_collection`, of containment without a mask: an exception is caught. -/
def addArtifactToCollection (collectionId rootId orderKey : String) (origin : Bool) : DbM Bool :=
  tryCatch
    (do
      let _ ← addEdges [.tuple (.str collectionId) (.str rootId) (.str containsLabel)
        (membershipProps orderKey rootId origin)] 500 true
      pure true)
    fun _ => pure false

section Calls

variable (now : Val → Bool)

def workspaceNotFound : AccessErr := .http 404 "Workspace not found"

/-- `get_workspace`: the container, if the user's own grants on it allow the action and none denies it. -/
def getWorkspace (db : Store) (userId workspaceId : String) (required : Action) : Except AccessErr Doc :=
  match docOf db workspaceId with
  | none => .error workspaceNotFound
  | some entity => do
    let grants ← getActiveGrantsForPrincipalResource now db userId workspaceId
    if grants.any fun g => g.isDeny && g.flag required then .error workspaceNotFound
    else if grants.any fun g => g.isAllow && g.flag required then .ok entity
    else .error workspaceNotFound

/-- `_user_can_add_to_collection`: a refusal is caught, another exception is not. -/
def userCanAddToCollection (db : Store) (userId collectionId : String) : Except AccessErr Bool :=
  match getWorkspace now db userId collectionId .add with
  | .ok _ => .ok true
  | .error (.http _ _) => .ok false
  | .error e => .error e

def addArtifactToWorkspace (n : Node) (userId workspaceId rootId : String) : Except AccessErr (Doc × Node) := do
  let _ ← getWorkspace now n.db userId workspaceId .add
  match newestByRoot n.db rootId with
  | none => .error (.http 404 "Artifact not readable")
  | some live =>
    let last ← getLastOrderKey n.db workspaceId
    -- the call leaves `origin` at its default
    pure (live, n.endsAt (addArtifactToCollection workspaceId rootId (afterKey last) true))

/-- `resolve_binding_multi`, from what the workspace's binding names. -/
def resolveBindingMulti (db : Store) (userId workspaceId : String) (bound : List String) :
    Except AccessErr (List String) := do
  let _ ← getWorkspace now db userId workspaceId .read
  bound.filterM (userCanReadCollection now db userId)

/-- One target of `_link_to_target_collections`; what raises is passed over. -/
def linkToTarget (userId rootId : String) (n : Node) (targetId : String) : Node :=
  match userCanAddToCollection now n.db userId targetId, getLastOrderKey n.db targetId with
  | .ok true, .ok last => n.endsAt (addArtifactToCollection targetId rootId (afterKey last) true)
  | _, _ => n

def linkToTargetCollections (n : Node) (userId workspaceId rootId : String) (bound : List String) :
    Except AccessErr Node := do
  let targetIds ← resolveBindingMulti now n.db userId workspaceId bound
  pure (targetIds.foldl (linkToTarget now userId rootId) n)

end Calls

inductive LinkOp
  | workspace (workspaceId rootId : String)
  /-- The links of a new artifact, by what the workspace's binding names. -/
  | targets (workspaceId rootId : String) (bound : List String)

/-- The node after a user's call; one that raises leaves it as it is. -/
def linkStep (now : Val → Bool) (userId : String) (n : Node) : LinkOp → Node
  | .workspace workspaceId rootId =>
    match addArtifactToWorkspace now n userId workspaceId rootId with
    | .ok r => r.2
    | .error _ => n
  | .targets workspaceId rootId bound =>
    match linkToTargetCollections now n userId workspaceId rootId bound with
    | .ok n' => n'
    | .error _ => n

/-! ### What a link leaves -/

def linkKey (c x : String) : EdgeKey := edgeKey c x containsLabel

/-- The tables after a link of `x` under `c`: at most the row under its key is another, an origin edge with the
full mask. -/
structure Linked (c x : String) (db db' : Store) : Prop where
  vertex : db'.vertex = db.vertex
  others : ∀ key, key ≠ linkKey c x → db'.edge.lookup key = db.edge.lookup key
  link : db'.edge.lookup (linkKey c x) = db.edge.lookup (linkKey c x) ∨
    ∃ r, db'.edge.lookup (linkKey c x) = some r ∧ r.isOrigin = some 1 ∧ (∀ a, r.conducts a = true) ∧
      (db.edge.lookup (linkKey c x) = none → r.src = c ∧ r.dst = x ∧ r.label = containsLabel) ∧
      ∀ o, db.edge.lookup (linkKey c x) = some o → r.src = o.src ∧ r.dst = o.dst ∧ r.label = o.label

theorem Linked.refl (c x : String) (db : Store) : Linked c x db db := ⟨rfl, fun _ _ => rfl, .inl rfl⟩

theorem Linked.then_sameTables (h : Linked c x db db₁) (hs : SameTables db₁ db₂) :
    Linked c x db db₂ := by
  obtain ⟨hv, ho, hl⟩ := h
  refine ⟨hs.vertex.trans hv, fun key hk => ?_, ?_⟩
  · rw [hs.edge]
    exact ho key hk
  · rw [hs.edge]
    exact hl

theorem edgeRow_membership (h : edgeRow ⟨c, x, containsLabel, membershipProps key x true⟩ origin seq leaf = .ok row) :
    row.src = c ∧ row.dst = x ∧ row.label = containsLabel ∧ row.isOrigin = some 1 ∧ ∀ a, row.conducts a = true := by
  obtain ⟨-, hprop, -, horigin, hprops⟩ := edgeRow_content h
  obtain ⟨hlabel, hdst⟩ := edgeRow_endpoints h
  have hnone : row.propagate = .none := (Except.ok.inj hprop).symm
  have hblob : row.props.val.get "propagate" = .none := by
    rw [hprops, Doc.get_norm]
    unfold blobOf Doc.get
    rw [Doc.find?_without_of _ (by decide)]
    rfl
  have hmask : row.mask = .none := by
    unfold ERow.mask edgeProp
    rw [hnone]
    simp only [Val.isNone, if_true, hblob]
    rfl
  refine ⟨edgeRow_src h, hdst, hlabel, horigin, fun a => ?_⟩
  unfold ERow.conducts
  rw [hmask]
  rfl

theorem Linked.written (h : Linked c x db db₁)
    (hrow : edgeRow ⟨c, x, containsLabel, membershipProps key x true⟩ origin seq leaf = .ok row)
    (hw : EdgeWritten (linkKey c x) row db₁ db₂) : Linked c x db db₂ := by
  obtain ⟨hv, hothers, hlink⟩ := h
  obtain ⟨hsrc, hdst, hlabel, horigin, hconducts⟩ := edgeRow_membership hrow
  have hat : db₂.edge.lookup (linkKey c x) = some (upsertEdge (db₁.edge.lookup (linkKey c x)) row) := by
    rw [hw.edge, AList.lookup_insert]
  refine ⟨hw.vertex.trans hv, fun key hk => ?_, .inr ⟨_, hat, ?_⟩⟩
  · rw [hw.edge, AList.lookup_insert_ne hk]
    exact hothers key hk
  · have hauth : (upsertEdge (db₁.edge.lookup (linkKey c x)) row).isOrigin = some 1 ∧
        ∀ a, (upsertEdge (db₁.edge.lookup (linkKey c x)) row).conducts a = true := by
      cases db₁.edge.lookup (linkKey c x) <;> exact ⟨horigin, hconducts⟩
    refine ⟨hauth.1, hauth.2, ?_⟩
    rcases hlink with hsame | ⟨r, hr, -, -, hnew, hold⟩
    · rw [hsame]
      cases hl : db.edge.lookup (linkKey c x) with
      | none => exact ⟨fun _ => ⟨hsrc, hdst, hlabel⟩, fun o ho => nomatch ho⟩
      | some o =>
        refine ⟨fun hn => (nomatch hn), fun o' ho => ?_⟩
        cases ho
        exact ⟨rfl, rfl, rfl⟩
    · rw [hr]
      exact ⟨hnew, hold⟩

theorem unpack_membership {e : EdgeSpec}
    (h : unpack (.tuple (.str c) (.str x) (.str containsLabel) (membershipProps key x true)) = .ok e) :
    e = ⟨c, x, containsLabel, membershipProps key x true⟩ := by
  unfold unpack unpackFields at h
  simp only at h
  split_ifs at h
  cases h
  rfl

theorem endsAt_caught (m : DbM α) (a : α) (n : Node) :
    n.endsAt (tryCatch m fun _ => pure a) = n.endsAt m := by
  unfold Node.endsAt
  have hcatch : (tryCatch m fun _ => pure a) n = EStateM.tryCatch m (fun _ => pure a) n := rfl
  rw [hcatch]
  unfold EStateM.tryCatch
  cases m n <;> rfl

theorem endsAt_bind_pure {β : Type} (m : DbM α) (b : β) (n : Node) :
    n.endsAt (do let _ ← m; pure b) = n.endsAt m := by
  unfold Node.endsAt
  cases h : m n with
  | ok a n' => rw [bind_of_ok h]; rfl
  | error e n' => rw [bind_of_error h]

theorem addArtifactToCollection_linked (c x orderKey : String) (n : Node) (hn : n.inTxn = false) :
    Linked c x n.db (n.endsAt (addArtifactToCollection c x orderKey true)).db ∧
      (n.endsAt (addArtifactToCollection c x orderKey true)).inTxn = false := by
  have hJ : OfTables (Linked c x n.db) := fun _ _ hs h => h.then_sameTables hs
  have hone : ∀ e ∈ [EdgeArg.tuple (.str c) (.str x) (.str containsLabel) (membershipProps orderKey x true)],
      Inside n (Linked c x n.db) (addOne n.graphLeaves e true) := by
    intro e he
    rw [List.mem_singleton] at he
    subst he
    refine inside_of_tables (fun m hm => ?_) fun m hm => ?_
    · rw [← hm.graphLeaves]
      exact addOne_sameEnv _ _ m
    · cases hu : unpack (.tuple (.str c) (.str x) (.str containsLabel) (membershipProps orderKey x true)) with
      | error e =>
        unfold addOne
        refine runs_bind (runs_ofExcept (fun e' he => ?_) trivial)
        rw [hu] at he
        cases he
      | ok e =>
        obtain rfl := unpack_membership hu
        refine (addOne_stamped _ hu m).imp ?_
        rintro - m' ⟨seq, leaf, row, hrow, hw⟩
        exact hm.holds.written hrow hw
  have hadd : Runs (addEdges [.tuple (.str c) (.str x) (.str containsLabel) (membershipProps orderKey x true)] 500 true)
      n (fun _ n' => At n (Linked c x n.db) n' ∧ n'.inTxn = false)
      fun n' => At n (Linked c x n.db) n' ∧ n'.inTxn = false :=
    runs_bind (runs_get (top_bulk hJ hone n ⟨rfl, rfl, Linked.refl c x n.db⟩ hn))
  unfold addArtifactToCollection
  rw [endsAt_caught, endsAt_bind_pure]
  have hends := runs_endsAt hadd
  exact ⟨hends.1.holds, hends.2⟩

/-! ### Parents -/

theorem getOriginParent_of_least {key : EdgeKey} (hlen : ¬(inbound db x).length > edgesOfLimit)
    (hr : IsParent db x key r) (hleast : ∀ key' r', IsParent db x key' r' → key ≤ key') :
    getOriginParent db x = .ok (some r) := by
  obtain ⟨p, hp⟩ : ∃ p, getOriginParent db x = .ok p := ⟨_, by rw [getOriginParent_eq, if_neg hlen]⟩
  cases p with
  | none => exact absurd hr (getOriginParent_none hp key r)
  | some r₀ =>
    obtain ⟨key₀, hr₀, hleast₀⟩ := getOriginParent_some hp
    obtain rfl : key = key₀ := le_antisymm (hleast key₀ r₀ hr₀) (hleast₀ key r hr)
    rw [hp, Option.some.inj (hr.1.symm.trans hr₀.1)]

theorem getOriginParent_of_none (hlen : ¬(inbound db x).length > edgesOfLimit) (h : ∀ key r, ¬IsParent db x key r) :
    getOriginParent db x = .ok none := by
  obtain ⟨p, hp⟩ : ∃ p, getOriginParent db x = .ok p := ⟨_, by rw [getOriginParent_eq, if_neg hlen]⟩
  cases p with
  | none => exact hp
  | some r =>
    obtain ⟨key, hr, -⟩ := getOriginParent_some hp
    exact absurd hr (h key r)

def LinkApart (db : Store) (c x : String) : Prop :=
  ∀ o, db.edge.lookup (linkKey c x) = some o → o.src = c ∧ o.dst = x ∧ o.label = containsLabel

/-- The container `x` is read under stays what it is. -/
def HomeKept (db : Store) (a : Action) (c x : String) : Prop :=
  (∃ key o, IsParent db x key o ∧ key < linkKey c x) ∨
    ∃ o, db.edge.lookup (linkKey c x) = some o ∧ o.isOriginEdge = true ∧ o.conducts a = true

section Linked

variable {c x : String} {db db' : Store} (h : Linked c x db db') (hap : LinkApart db c x)
include h hap

theorem Linked.at_key (hr : db'.edge.lookup (linkKey c x) = some r) :
    r.src = c ∧ r.dst = x ∧ r.label = containsLabel := by
  rcases h.link with hsame | ⟨r', hr', -, -, hnew, hold⟩
  · exact hap r (hsame ▸ hr)
  · rw [hr'] at hr
    cases hr
    cases ho : db.edge.lookup (linkKey c x) with
    | none => exact hnew ho
    | some o =>
      obtain ⟨hs, hd, hl⟩ := hold o ho
      obtain ⟨hs', hd', hl'⟩ := hap o ho
      exact ⟨hs.trans hs', hd.trans hd', hl.trans hl'⟩

theorem Linked.isParent_iff (hy : y ≠ x) (key : EdgeKey) (r : ERow) :
    IsParent db' y key r ↔ IsParent db y key r := by
  by_cases hk : key = linkKey c x
  · subst hk
    refine iff_of_false ?_ ?_
    · rintro ⟨hr, hd, -, -⟩
      exact hy (hd.symm.trans (h.at_key hap hr).2.1)
    · rintro ⟨hr, hd, -, -⟩
      exact hy (hd.symm.trans (hap r hr).2.1)
  · unfold IsParent
    rw [h.others key hk]

omit hap in
theorem Linked.inbound_length (y : String) : (inbound db y).length ≤ (inbound db' y).length := by
  have hsub : (inbound db y).map Prod.fst ⊆ (inbound db' y).map Prod.fst := by
    intro key hkey
    obtain ⟨⟨key', o⟩, hm, rfl⟩ := List.mem_map.mp hkey
    obtain ⟨hk, hd, hl⟩ := mem_inbound.mp hm
    by_cases he : key' = linkKey c x
    · subst he
      rcases h.link with hsame | ⟨r, hr, -, -, -, hold⟩
      · exact List.mem_map.mpr ⟨(_, o), mem_inbound.mpr ⟨hsame.trans hk, hd, hl⟩, rfl⟩
      · obtain ⟨-, hd', hl'⟩ := hold o hk
        exact List.mem_map.mpr ⟨(_, r), mem_inbound.mpr ⟨hr, hd'.trans hd, hl'.trans hl⟩, rfl⟩
    · exact List.mem_map.mpr ⟨(key', o), mem_inbound.mpr ⟨(h.others key' he).trans hk, hd, hl⟩, rfl⟩
  have := List.subperm_of_subset (inbound_keys_nodup db y) hsub
  simpa using this.length_le

omit hap in
theorem Linked.parent_before {key : EdgeKey} (hkey : key < linkKey c x) (ho : IsParent db x key o)
    (hleast : ∀ key' r', IsParent db x key' r' → key ≤ key') (hlen : ¬(inbound db' x).length > edgesOfLimit) :
    getOriginParent db' x = .ok (some o) := by
  refine getOriginParent_of_least hlen ⟨(h.others key hkey.ne).trans ho.1, ho.2⟩ fun key' r' hr' => ?_
  by_cases hk : key' = linkKey c x
  · exact hk ▸ hkey.le
  · exact hleast key' r' ⟨(h.others key' hk).symm.trans hr'.1, hr'.2⟩

theorem Linked.parent_again (ho : IsParent db x (linkKey c x) o) (hc : o.conducts a = true)
    (hleast : ∀ key' r', IsParent db x key' r' → linkKey c x ≤ key') (hlen : ¬(inbound db' x).length > edgesOfLimit) :
    ∃ r, getOriginParent db' x = .ok (some r) ∧ r.src = o.src ∧ r.conducts a = true := by
  obtain ⟨r, hr, horigin, hcond⟩ : ∃ r, db'.edge.lookup (linkKey c x) = some r ∧ r.isOriginEdge = true ∧
      r.conducts a = true := by
    rcases h.link with hsame | ⟨r, hr, hone, hall, -, -⟩
    · exact ⟨o, hsame.trans ho.1, ho.2.2.2, hc⟩
    · exact ⟨r, hr, isOriginEdge_of_column hone, hall a⟩
  obtain ⟨hs, hd, hl⟩ := h.at_key hap hr
  refine ⟨r, getOriginParent_of_least hlen ⟨hr, hd, hl, horigin⟩ fun key' r' hr' => ?_,
    hs.trans (hap o ho.1).1.symm, hcond⟩
  by_cases hk : key' = linkKey c x
  · exact hk ▸ le_refl _
  · exact hleast key' r' ⟨(h.others key' hk).symm.trans hr'.1, hr'.2⟩

theorem Linked.conductingParent_eq (hy : y ≠ x ∨ HomeKept db a c x) :
    conductingParent db' a y = conductingParent db a y ∨ ∃ e, conductingParent db' a y = .error e := by
  by_cases hlen : (inbound db' y).length > edgesOfLimit
  · refine .inr ⟨.edgesTruncated, ?_⟩
    unfold conductingParent
    rw [getOriginParent_eq, if_pos hlen]
    rfl
  have hlen₀ : ¬(inbound db y).length > edgesOfLimit := fun hgt =>
    hlen (lt_of_lt_of_le hgt (h.inbound_length y))
  obtain ⟨p, hp⟩ : ∃ p, getOriginParent db y = .ok p := ⟨_, by rw [getOriginParent_eq, if_neg hlen₀]⟩
  refine .inl ?_
  unfold conductingParent
  by_cases hyx : y = x
  · subst hyx
    have hkept := hy.resolve_left (fun hne => hne rfl)
    cases p with
    | none =>
      have hno := getOriginParent_none hp
      rcases hkept with ⟨key, o, ho, -⟩ | ⟨o, ho, horigin, -⟩
      · exact absurd ho (hno key o)
      · exact absurd ⟨ho, (hap o ho).2.1, (hap o ho).2.2, horigin⟩ (hno _ o)
    | some o =>
      obtain ⟨key, hkey, hleast⟩ := getOriginParent_some hp
      rcases hkept with ⟨key', o', ho', hlt⟩ | ⟨o', ho', horigin, hc⟩
      · rw [hp, h.parent_before ((hleast key' o' ho').trans_lt hlt) hkey hleast hlen]
      · have hk' : IsParent db y (linkKey c y) o' := ⟨ho', (hap o' ho').2.1, (hap o' ho').2.2, horigin⟩
        rcases (hleast _ o' hk').lt_or_eq with hlt | rfl
        · rw [hp, h.parent_before hlt hkey hleast hlen]
        · obtain rfl : o = o' := Option.some.inj (hkey.1.symm.trans ho')
          obtain ⟨r, hr, hsrc, hcr⟩ := h.parent_again hap hkey hc hleast hlen
          rw [hp, hr]
          simp only [Except.map, Option.bind_some, hsrc, hc, hcr]
  · have hiff := h.isParent_iff hap hyx
    have hsame : getOriginParent db' y = .ok p := by
      cases p with
      | none => exact getOriginParent_of_none hlen fun key r hr => getOriginParent_none hp key r ((hiff key r).mp hr)
      | some o =>
        obtain ⟨key, hkey, hleast⟩ := getOriginParent_some hp
        exact getOriginParent_of_least hlen ((hiff key o).mpr hkey) fun key' r' hr' =>
          hleast key' r' ((hiff key' r').mp hr')
    rw [hp, hsame]

end Linked

/-! ### The gate after a link -/

/-- The link goes to no node on `t`'s line, or leaves that node its container; and it puts no collection into the
commons. -/
structure Harmless (now : Val → Bool) (a : Action) (t : String) (db : Store) (c x : String) : Prop where
  apart : LinkApart db c x
  line : (∀ doc, docOf db t = some doc → x ∉ (originChain db t a (some (rootIn doc t))).items) ∨ HomeKept db a c x
  commons : a = .read → c ∈ reachableCollections now db publicPrincipal →
    (∃ row, db.vertex.lookup x = some row ∧ row.isCollection = true) → CollectionStep db c x

section Gate

variable {now : Val → Bool} {c x t : String} {a : Action} {db db' : Store}

theorem Linked.originChain_cut (h : Linked c x db db') (hh : Harmless now a t db c x) {doc : Doc}
    (hdoc : docOf db t = some doc) :
    (originChain db' t a (some (rootIn doc t))).Cut (originChain db t a (some (rootIn doc t))) := by
  have hdoc' : docOf db' t = some doc := by
    unfold docOf at hdoc ⊢
    rw [h.vertex]
    exact hdoc
  have hsame : ∀ y ∈ (originChain db t a (some (rootIn doc t))).items,
      conductingParent db' a y = conductingParent db a y ∨ ∃ e, conductingParent db' a y = .error e := by
    intro y hy
    refine h.conductingParent_eq hh.apart ?_
    rcases hh.line with hline | hkept
    · exact .inl fun he => hline doc hdoc (he ▸ hy)
    · exact .inr hkept
  unfold originChain at hsame ⊢
  simp only [chainRoot_rootIn hdoc, chainRoot_rootIn hdoc'] at hsame ⊢
  by_cases hid : rootIn doc t = t
  · rw [if_pos hid] at hsame ⊢
    rw [if_pos hid]
    exact (climb_cut_on _ _ _ hsame).cons t
  · rw [if_neg hid] at hsame ⊢
    rw [if_neg hid]
    exact ((climb_cut_on _ _ _ fun y hy => hsame y (List.mem_cons_of_mem t hy)).cons _).cons _

theorem Linked.reached (h : Linked c x db db') (hap : LinkApart db c x)
    (hcommons : c ∈ reachableCollections now db publicPrincipal →
      (∃ row, db.vertex.lookup x = some row ∧ row.isCollection = true) → CollectionStep db c x) {g : String}
    (hg : g ∈ reachableCollections now db' publicPrincipal) : g ∈ reachableCollections now db publicPrincipal := by
  have hactive : getActiveCollectionIdsForUser now db' publicPrincipal =
      getActiveCollectionIdsForUser now db publicPrincipal := by
    unfold getActiveCollectionIdsForUser userGrantDocs grantDocsBy sortedVertices
    rw [h.vertex]
  rw [mem_reachableCollections (by decide), hactive] at hg
  obtain ⟨rid, hrid, hreach⟩ := hg
  rw [mem_reachableCollections (by decide)]
  refine ⟨rid, hrid, ?_⟩
  induction hreach with
  | refl => exact Relation.ReflTransGen.refl
  | @tail u v _ hstep ih =>
    refine ih.tail ?_
    obtain ⟨⟨row, hrow, hct⟩, key, r, hk, hd, hl, ho, hs⟩ := hstep
    rw [h.vertex] at hrow
    by_cases hkey : key = linkKey c x
    · subst hkey
      obtain ⟨hs', hd', -⟩ := h.at_key hap hk
      obtain rfl : c = u := hs'.symm.trans hs
      obtain rfl : x = v := hd'.symm.trans hd
      exact hcommons ((mem_reachableCollections (by decide) c).mpr ⟨rid, hrid, ih⟩) ⟨row, hrow, hct⟩
    · exact ⟨⟨row, hrow, hct⟩, key, r, (h.others key hkey).symm.trans hk, hd, hl, ho, hs⟩

theorem Linked.accepts (h : Linked c x db db') (hh : Harmless now a t db c x) {p : String}
    (hacc : Accepts now db' p t a.name) : Accepts now db p t a.name := by
  have hdocs : docOf db' t = docOf db t := by
    unfold docOf
    rw [h.vertex]
  have hgrants : ∀ rid, resourceGrantDocs now db' p rid = resourceGrantDocs now db p rid := fun rid => by
    unfold resourceGrantDocs grantDocsBy sortedVertices
    rw [h.vertex]
  by_cases hp : p = ""
  · obtain ⟨held, hheld⟩ := hacc
    unfold checkAccess at hheld
    rw [Action.ofName_name] at hheld
    subst hp
    cases hd : docOf db' t <;> simp [hd] at hheld
  cases hd : docOf db t with
  | none =>
    obtain ⟨held, hheld⟩ := hacc
    unfold checkAccess at hheld
    rw [Action.ofName_name] at hheld
    simp [hdocs, hd] at hheld
  | some doc =>
    have hcut := h.originChain_cut hh hd
    rw [accepts_iff (hdocs.trans hd) hp] at hacc
    rw [accepts_iff hd hp]
    rcases hacc with hl | ⟨ha, hpub, hl⟩
    · have hl' := hl.of_cut hcut
      simp only [LineAllows, CheckAllows, CheckReads, CheckDenies, hgrants] at hl' ⊢
      exact .inl hl'
    · have hl' := hl.of_cut hcut
      have hsub : ∀ g, g ∈ reachableCollections now db' publicPrincipal →
          g ∈ reachableCollections now db publicPrincipal := fun g => h.reached hh.apart (hh.commons ha)
      refine .inr ⟨ha, ?_, ?_⟩
      · unfold isMadePublic at hpub ⊢
        simp only [Bool.or_eq_true, decide_eq_true_eq, Option.any_eq_true] at hpub ⊢
        rcases hpub with ⟨g, hg, hm⟩ | hm
        · exact .inl ⟨g, hg, hsub g hm⟩
        · exact .inr (hsub _ hm)
      · simp only [LineSilent, CheckAllows, CheckReads, CheckDenies, hgrants] at hl' ⊢
        exact hl'

end Gate

/-! ### Runs of links -/

/-- The condition holds of the tables at every edge the call writes. -/
def LinkOp.Meets (now : Val → Bool) (userId : String) (P : Store → String → String → Prop) (n : Node) :
    LinkOp → Prop
  | .workspace workspaceId rootId =>
    (∃ r, addArtifactToWorkspace now n userId workspaceId rootId = .ok r) → P n.db workspaceId rootId
  | .targets workspaceId rootId bound =>
    ∀ targetIds, resolveBindingMulti now n.db userId workspaceId bound = .ok targetIds →
      Along (linkToTarget now userId rootId)
        (fun n targetId => userCanAddToCollection now n.db userId targetId = .ok true → P n.db targetId rootId)
        n targetIds

section Runs

variable {now : Val → Bool} {userId : String} {P : Store → String → String → Prop} {I : Node → Prop}

theorem linkStep_inv (hlink : ∀ n c x key, I n → P n.db c x → I (n.endsAt (addArtifactToCollection c x key true)))
    {n : Node} (hn : I n) {op : LinkOp} (h : op.Meets now userId P n) : I (linkStep now userId n op) := by
  cases op with
  | workspace workspaceId rootId =>
    cases hr : addArtifactToWorkspace now n userId workspaceId rootId with
    | error e =>
      simp only [linkStep, hr]
      exact hn
    | ok r =>
      simp only [linkStep, hr]
      have hP := h ⟨r, hr⟩
      unfold addArtifactToWorkspace at hr
      obtain ⟨entity, -, hr⟩ := bind_ok hr
      cases hlive : newestByRoot n.db rootId with
      | none =>
        rw [hlive] at hr
        cases hr
      | some live =>
        rw [hlive] at hr
        obtain ⟨last, -, hr⟩ := bind_ok hr
        cases hr
        exact hlink n workspaceId rootId _ hn hP
  | targets workspaceId rootId bound =>
    cases hids : resolveBindingMulti now n.db userId workspaceId bound with
    | error e =>
      simp only [linkStep, linkToTargetCollections, hids]
      exact hn
    | ok targetIds =>
      simp only [linkStep, linkToTargetCollections, hids]
      have hstep : ∀ m target, I m → (userCanAddToCollection now m.db userId target = .ok true → P m.db target rootId) →
          I (linkToTarget now userId rootId m target) := by
        intro m target hm hP
        unfold linkToTarget
        split
        · exact hlink m target rootId _ hm (hP ‹_›)
        · exact hm
      exact along_inv hstep targetIds n hn (h targetIds hids)

/-- **Harmless links confer nothing.**  After any calls of a user whose links are harmless for an artifact, nobody new
reaches it. -/
theorem link_confers_nothing (now : Val → Bool) (userId : String) (n : Node) (hn : n.inTxn = false)
    (ops : List LinkOp) (t : String) (a : Action)
    (h : Along (linkStep now userId) (fun n op => op.Meets now userId (Harmless now a t) n) n ops) (p : String)
    (hacc : Accepts now (ops.foldl (linkStep now userId) n).db p t a.name) : Accepts now n.db p t a.name := by
  have hlink : ∀ (m : Node) (c x key : String),
      (m.inTxn = false ∧ (Accepts now m.db p t a.name → Accepts now n.db p t a.name)) → Harmless now a t m.db c x →
      (m.endsAt (addArtifactToCollection c x key true)).inTxn = false ∧
        (Accepts now (m.endsAt (addArtifactToCollection c x key true)).db p t a.name → Accepts now n.db p t a.name) := by
    rintro m c x key ⟨hm, hback⟩ hh
    obtain ⟨hlinked, htxn⟩ := addArtifactToCollection_linked c x key m hm
    exact ⟨htxn, fun hacc => hback (hlinked.accepts hh hacc)⟩
  have hstep : ∀ (m : Node) (op : LinkOp),
      (m.inTxn = false ∧ (Accepts now m.db p t a.name → Accepts now n.db p t a.name)) →
      op.Meets now userId (Harmless now a t) m →
      (linkStep now userId m op).inTxn = false ∧
        (Accepts now (linkStep now userId m op).db p t a.name → Accepts now n.db p t a.name) :=
    fun m op hm hop => linkStep_inv (I := fun m => m.inTxn = false ∧
      (Accepts now m.db p t a.name → Accepts now n.db p t a.name)) hlink hm hop
  exact (along_inv hstep ops n ⟨hn, id⟩ h).2 hacc

end Runs

/-! ### Two containers -/

def homedNode (workspaceId : String) : Node :=
  hereNode.run
    [.putArtifact [("id", .str workspaceId)] true false,
     .putArtifact [("id", .str "k")] true false,
     .putArtifact [("id", .str "r"), ("root_id", .str "r"), ("collection_id", .str "k")] true false,
     .putArtifact (grantDoc "g" "u" workspaceId "allow" ++ [("can_add", .bool true)]) true false,
     .putArtifact (grantDoc "h" "o" "k" "allow") true false]

theorem homedNode_harmless : Harmless (fun _ => true) .read "r" (homedNode "ws").db "ws" "r" := by
  obtain ⟨hapart, hcommons, hhome, haway⟩ : (homedNode "ws").db.edge.lookup (linkKey "ws" "r") = none ∧
      reachableCollections (fun _ => true) (homedNode "ws").db publicPrincipal = [] ∧
      ((homedNode "ws").db.edge.lookup (linkKey "k" "r")).any (fun o =>
        decide (o.dst = "r") && decide (o.label = containsLabel) && o.isOriginEdge) = true ∧
      linkKey "k" "r" < linkKey "ws" "r" := by decide +kernel
  refine ⟨fun o ho => ?_, .inr (.inl ⟨linkKey "k" "r", ?_⟩), fun _ hc => ?_⟩
  · rw [hapart] at ho
    cases ho
  · rw [Option.any_eq_true] at hhome
    obtain ⟨o, ho, hb⟩ := hhome
    simp only [Bool.and_eq_true, decide_eq_true_eq] at hb
    exact ⟨o, ⟨ho, hb.1.1, hb.1.2, hb.2⟩, haway⟩
  · rw [hcommons] at hc
    cases hc

theorem link_confers_nothing_homed :
    Accepts (fun _ => true) ([LinkOp.workspace "ws" "r"].foldl (linkStep (fun _ => true) "u") (homedNode "ws")).db
        "o" "r" Action.read.name ∧
      Accepts (fun _ => true) (homedNode "ws").db "o" "r" Action.read.name := by
  have hacc : Accepts (fun _ => true)
      ([LinkOp.workspace "ws" "r"].foldl (linkStep (fun _ => true) "u") (homedNode "ws")).db
      "o" "r" Action.read.name := accepts_iff_acceptsB.mpr (by decide +kernel)
  exact ⟨hacc, link_confers_nothing (fun _ => true) "u" (homedNode "ws") (by decide +kernel) [.workspace "ws" "r"]
    "r" .read ⟨fun _ => homedNode_harmless, trivial⟩ "o" hacc⟩

theorem link_confers_reading :
    ¬∀ (now : Val → Bool) (userId : String) (n : Node) (ops : List LinkOp) (r : String) (a : Action),
      n.inTxn = false → ¬Accepts now n.db userId r a.name →
        ∀ p, ¬Accepts now n.db p r a.name → ¬Accepts now (ops.foldl (linkStep now userId) n).db p r a.name := by
  intro h
  have hbefore : ¬Accepts (fun _ => true) (homedNode "w").db "u" "r" Action.read.name := by
    rw [accepts_iff_acceptsB]
    decide +kernel
  refine h (fun _ => true) "u" (homedNode "w") [.workspace "w" "r"] "r" .read (by decide +kernel) hbefore "u" hbefore ?_
  rw [accepts_iff_acceptsB]
  decide +kernel

end Mantle
