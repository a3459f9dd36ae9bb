import Mantle.Access.Lightcone
import Mantle.Db.Run

/-!
# Mantle.Access.Gate — the read gate, and how far the resolver may exceed it

`check_access` walks one line up from an artifact and takes the nearest grant; `resolve` searches every origin edge
down from the grants.
-/

namespace Mantle

open Walk

variable {db : Store} {id : String}

/-! ### The commons -/

def publicPrincipal : String := "public"

/-- `_collection_children`: the collections an origin edge places directly in `parent`. -/
def collectionChildren (db : Store) (parent : String) : List String :=
  ((sortedVertices db).filter fun v =>
    v.2.ct.eqStr collectionContentType && db.edge.toPairs.any fun e =>
      e.2.dst = v.1 && e.2.label = containsLabel && e.2.isOrigin == some 1 && e.2.src = parent).map
    Prod.fst

/-- `_descendants`: the collections below `rid`.  Its callers take their set, so the order of the
search is left to `flood`. -/
def collectionsBelow (db : Store) (rid : String) : List String :=
  match flood (fun u => (.ok (collectionChildren db u) : Except AccessErr (List String)))
      (db.vertex.entries.length + 1) [rid] [rid] with
  | .ok out => out
  | .error _ => []

def reachableCollections (now : Val → Bool) (db : Store) (p : String) : List String :=
  if p = "" then []
  else
    (getActiveCollectionIdsForUser now db p).flatMap fun rid =>
      rid :: collectionsBelow db rid

def CollectionStep (db : Store) (u v : String) : Prop :=
  (∃ row, db.vertex.lookup v = some row ∧ row.ct.eqStr collectionContentType = true) ∧
    ∃ key r, db.edge.lookup key = some r ∧ r.dst = v ∧ r.label = containsLabel ∧
      r.isOrigin = some 1 ∧ r.src = u

theorem mem_sortedVertices {row : VRow} :
    (id, row) ∈ sortedVertices db ↔ db.vertex.lookup id = some row := by
  unfold sortedVertices
  rw [List.mem_insertionSort, Table.mem_toPairs]

theorem mem_collectionChildren {u v : String} :
    v ∈ collectionChildren db u ↔ CollectionStep db u v := by
  unfold collectionChildren CollectionStep
  simp only [List.mem_map, List.mem_filter, Prod.exists, mem_sortedVertices, Bool.and_eq_true,
    List.any_eq_true, Table.mem_toPairs, decide_eq_true_eq, beq_iff_eq]
  constructor
  · rintro ⟨_, row, ⟨hrow, hct, key, r, hr, ⟨⟨hd, hl⟩, ho⟩, hs⟩, rfl⟩
    exact ⟨⟨row, hrow, hct⟩, key, r, hr, hd, hl, ho, hs⟩
  · rintro ⟨⟨row, hrow, hct⟩, key, r, hr, hd, hl, ho, hs⟩
    exact ⟨v, row, ⟨hrow, hct, key, r, hr, ⟨⟨hd, hl⟩, ho⟩, hs⟩, rfl⟩

theorem mem_collectionsBelow {rid g : String} : g ∈ rid :: collectionsBelow db rid ↔
    Relation.ReflTransGen (CollectionStep db) rid g := by
  let children := fun u => (.ok (collectionChildren db u) : Except AccessErr (List String))
  have hchild : ∀ u v, Child children u v ↔ CollectionStep db u v := by
    intro u v
    rw [← mem_collectionChildren]
    constructor
    · rintro ⟨cs, hcs, hv⟩
      cases hcs
      exact hv
    · exact fun hv => ⟨_, rfl, hv⟩
  have hnodes : ∀ u v, Child children u v → v ∈ db.vertex.toPairs.map Prod.fst := by
    intro u v h
    obtain ⟨⟨row, hrow, -⟩, -⟩ := (hchild u v).mp h
    exact List.mem_map.mpr ⟨(v, row), Table.mem_toPairs.mpr hrow, rfl⟩
  have hfuel : (db.vertex.toPairs.map Prod.fst).length < db.vertex.entries.length + 1 := by
    simp [Table.toPairs]
  obtain ⟨out, hout⟩ := @flood_total _ _ _ children (fun u => ⟨_, rfl⟩)
    (db.vertex.entries.length + 1) [rid] [rid]
  have hspec := (mem_flood_iff hnodes hfuel hout g).1
  have hbel : collectionsBelow db rid = out := by
    unfold collectionsBelow
    rw [hout]
  rw [hbel, List.mem_cons, ← List.mem_singleton, hspec]
  simp only [List.mem_singleton, exists_eq_left]
  constructor
  · exact Relation.ReflTransGen.mono (fun u v => (hchild u v).mp) _ _
  · exact Relation.ReflTransGen.mono (fun u v => (hchild u v).mpr) _ _

theorem mem_reachableCollections {now : Val → Bool} {p : String} (hp : p ≠ "") (g : String) :
    g ∈ reachableCollections now db p ↔
      ∃ rid ∈ getActiveCollectionIdsForUser now db p,
        Relation.ReflTransGen (CollectionStep db) rid g := by
  unfold reachableCollections
  rw [if_neg hp, List.mem_flatMap]
  simp only [mem_collectionsBelow]

def groundingOf (doc : Doc) : Option String :=
  if (doc.get "collection_id").truthy then some (doc.get "collection_id").pyStr
  else if (doc.get "origin_root").truthy then some (doc.get "origin_root").pyStr
  else none

def isMadePublic (now : Val → Bool) (db : Store) (doc : Doc) : Bool :=
  let reach := reachableCollections now db publicPrincipal
  (groundingOf doc).any (fun g => decide (g ∈ reach)) ||
    decide (((doc.get "id").orElse (.str "")).pyStr ∈ reach)

/-! ### The gate -/

/-- What the gate hands back: a grant of the principal's, or the commons' read. -/
inductive Held
  | grant (g : Grant)
  | commons (artifactId : String)

def notFound : AccessErr := .http 404 "Not found"

section Gate

variable (now : Val → Bool) (db : Store) (p : String)

/-- `_check_grants`: a deny raises, an allow is handed back. -/
def checkGrants (a : Action) (rid : String) : Except AccessErr (Option Grant) :=
  match getActiveGrantsForPrincipalResource now db p rid with
  | .error e => .error e
  | .ok grants =>
    if grants.any fun g => g.isDeny && g.flag a then .error notFound
    else .ok (grants.find? fun g => g.isAllow && g.flag a)

/-- What is left when the walk met no grant. -/
def checkCommons (a : Action) (id : String) (doc : Doc) : Except AccessErr Held :=
  if a = .read ∧ isMadePublic now db doc = true then .ok (.commons id) else .error notFound

/-- `check_access`, for a user principal. -/
def checkAccess (id action : String) : Except AccessErr Held :=
  match Action.ofName action with
  | none => .error (.http 400 ("Unknown action: " ++ action))
  | some a =>
    match docOf db id with
    | none => .error notFound
    | some doc =>
      if p = "" then .error notFound
      else
        match (originChain db id a (some (rootIn doc id))).find (checkGrants now db p a) with
        | .error .chainUnterminated =>
          .error (.http 500 "origin chain did not terminate; the lattice is malformed")
        | .error e => .error e
        | .ok (some g) => .ok (.grant g)
        | .ok none => checkCommons now db a id doc

/-- The gate returns a grant. -/
def Accepts (id action : String) : Prop := ∃ held, checkAccess now db p id action = .ok held

/-! ### The gate, as relations -/

variable (a : Action)

/-- Some grant of the principal on the resource allows the action. -/
def CheckAllows (rid : String) : Prop :=
  ∃ d ∈ resourceGrantDocs now db p rid, ∃ g, Grant.ofDoc d = .ok g ∧ g.isAllow = true ∧
    g.flag a = true

/-- Some grant of the principal on the resource denies the action. -/
def CheckDenies (rid : String) : Prop :=
  ∃ d ∈ resourceGrantDocs now db p rid, ∃ g, Grant.ofDoc d = .ok g ∧ g.isDeny = true ∧
    g.flag a = true

def CheckReads (rid : String) : Prop :=
  ∀ d ∈ resourceGrantDocs now db p rid, ∃ g, Grant.ofDoc d = .ok g

def LineAllows (line : Trail AccessErr String) : Prop :=
  ∃ pre r post, line.items = pre ++ r :: post ∧ CheckAllows now db p a r ∧
    ∀ q ∈ pre ++ [r], CheckReads now db p q ∧ ¬CheckDenies now db p a q

/-- The walk ends, and meets no grant for the action. -/
def LineSilent (line : Trail AccessErr String) : Prop :=
  line.ending = none ∧ ∀ q ∈ line.items,
    CheckReads now db p q ∧ ¬CheckDenies now db p a q ∧ ¬CheckAllows now db p a q

end Gate

/-- The artifact's own line meets an allow before any deny, or says nothing and the commons may read the artifact. -/
def LineAdmits (now : Val → Bool) (db : Store) (p : String) (a : Action) (x : String) (doc : Doc) :
    Prop :=
  LineAllows now db p a (originChain db x a (some (rootIn doc x))) ∨
    a = .read ∧ isMadePublic now db doc = true ∧
      LineSilent now db p a (originChain db x a (some (rootIn doc x)))

section Spec

variable {now : Val → Bool} {db : Store} {p : String} {a : Action} {rid : String}

theorem checkGrants_ok {o : Option Grant} (h : checkGrants now db p a rid = .ok o) :
    CheckReads now db p rid ∧ ¬CheckDenies now db p a rid ∧
      (o.isSome ↔ CheckAllows now db p a rid) := by
  unfold checkGrants at h
  cases hg : getActiveGrantsForPrincipalResource now db p rid with
  | error e =>
    rw [hg] at h
    cases h
  | ok grants =>
    rw [hg] at h
    dsimp only at h
    split_ifs at h with hd
    cases h
    have hmem := mapM_ok (f := Grant.ofDoc) hg
    refine ⟨mapM_isOk.mp ⟨grants, hg⟩, ?_, ?_⟩
    · rintro ⟨d, hdoc, g, hgd, hdeny, hflag⟩
      exact hd (List.any_eq_true.mpr ⟨g, (hmem g).mpr ⟨d, hdoc, hgd⟩, by simp [hdeny, hflag]⟩)
    · rw [List.find?_isSome]
      constructor
      · rintro ⟨g, hg', hb⟩
        obtain ⟨d, hdoc, hgd⟩ := (hmem g).mp hg'
        rw [Bool.and_eq_true] at hb
        exact ⟨d, hdoc, g, hgd, hb.1, hb.2⟩
      · rintro ⟨d, hdoc, g, hgd, ha, hf⟩
        exact ⟨g, (hmem g).mpr ⟨d, hdoc, hgd⟩, by simp [ha, hf]⟩

theorem checkGrants_answers (hr : CheckReads now db p rid) (hd : ¬CheckDenies now db p a rid) :
    ∃ o, checkGrants now db p a rid = .ok o := by
  obtain ⟨grants, hg⟩ := mapM_isOk.mpr hr
  have hg' : getActiveGrantsForPrincipalResource now db p rid = .ok grants := hg
  unfold checkGrants
  rw [hg']
  dsimp only
  rw [if_neg]
  · exact ⟨_, rfl⟩
  · intro hany
    obtain ⟨g, hgm, hb⟩ := List.any_eq_true.mp hany
    obtain ⟨d, hdoc, hgd⟩ := (mapM_ok hg g).mp hgm
    rw [Bool.and_eq_true] at hb
    exact hd ⟨d, hdoc, g, hgd, hb.1, hb.2⟩

theorem checkGrants_none_iff : checkGrants now db p a rid = .ok none ↔
    CheckReads now db p rid ∧ ¬CheckDenies now db p a rid ∧ ¬CheckAllows now db p a rid := by
  constructor
  · intro h
    obtain ⟨hr, hd, ha⟩ := checkGrants_ok h
    exact ⟨hr, hd, fun h' => by simpa using ha.mpr h'⟩
  · rintro ⟨hr, hd, ha⟩
    obtain ⟨o, ho⟩ := checkGrants_answers hr hd
    obtain ⟨-, -, hs⟩ := checkGrants_ok ho
    cases o with
    | none => exact ho
    | some g => exact absurd (hs.mp rfl) ha

theorem find_some_iff_lineAllows {line : Trail AccessErr String} :
    (∃ g, line.find (checkGrants now db p a) = .ok (some g)) ↔ LineAllows now db p a line := by
  constructor
  · rintro ⟨g, h⟩
    obtain ⟨pre, r, post, hline, hr, hpre⟩ := Trail.find_some_iff.mp h
    obtain ⟨hr1, hr2, hr3⟩ := checkGrants_ok hr
    refine ⟨pre, r, post, hline, hr3.mp rfl, ?_⟩
    intro q hq
    rcases List.mem_append.mp hq with hq | hq
    · obtain ⟨h1, h2, -⟩ := checkGrants_none_iff.mp (hpre q hq)
      exact ⟨h1, h2⟩
    · rw [List.mem_singleton] at hq
      exact hq ▸ ⟨hr1, hr2⟩
  · rintro ⟨pre, r, post, hline, hr, hclear⟩
    -- the first allow on the way decides
    obtain ⟨pre', q, post', hsplit, hq, hfirst⟩ :=
      @exists_first _ (CheckAllows now db p a) (pre ++ [r]) ⟨r, by simp, hr⟩
    have hq' : q ∈ pre ++ [r] := by
      rw [hsplit]
      simp
    obtain ⟨o, ho⟩ := checkGrants_answers (hclear q hq').1 (hclear q hq').2
    obtain ⟨-, -, hs⟩ := checkGrants_ok ho
    obtain ⟨g, rfl⟩ := Option.isSome_iff_exists.mp (hs.mpr hq)
    refine ⟨g, Trail.find_some_iff.mpr ⟨pre', q, post' ++ post, ?_, ho, ?_⟩⟩
    · rw [hline, show pre ++ r :: post = (pre ++ [r]) ++ post by simp, hsplit]
      simp
    · intro y hy
      have hy' : y ∈ pre ++ [r] := by
        rw [hsplit]
        simp [hy]
      exact checkGrants_none_iff.mpr ⟨(hclear y hy').1, (hclear y hy').2, hfirst y hy⟩

theorem find_none_iff_lineSilent {line : Trail AccessErr String} :
    line.find (checkGrants now db p a) = .ok none ↔ LineSilent now db p a line := by
  rw [Trail.find_none_iff]
  unfold LineSilent
  simp only [checkGrants_none_iff]

/-- **What the gate accepts.** -/
theorem accepts_iff {doc : Doc} (hdoc : docOf db id = some doc) (hp : p ≠ "") :
    Accepts now db p id a.name ↔ LineAdmits now db p a id doc := by
  unfold Accepts checkAccess LineAdmits
  rw [Action.ofName_name]
  simp only [hdoc, if_neg hp]
  rw [← find_some_iff_lineAllows, ← find_none_iff_lineSilent]
  cases hf : (originChain db id a (some (rootIn doc id))).find (checkGrants now db p a) with
  | error e => cases e <;> simp
  | ok o =>
    cases o with
    | some g => simp
    | none =>
      unfold checkCommons
      by_cases h : a = .read ∧ isMadePublic now db doc = true
      · simp [h]
      · simp [h]

theorem not_belowAllow_empty (x : String) : ¬BelowAllow now db "" a x := by
  rintro ⟨s, ⟨d, hd, -⟩, -⟩
  simp [userGrantDocs, grantDocsBy] at hd

/-! ### The resolver against the gate -/

/-- **When the resolver stays within the gate.**  Exactly when every document below an allowed resource and no denied
one is let through by its own line. -/
theorem resolve_within_gate_iff {ids : List String} (h : resolve now db p a.name = .ok ids) :
    (∀ x ∈ ids, (docOf db x).isSome → Accepts now db p x a.name) ↔
      ∀ x doc, docOf db x = some doc → BelowAllow now db p a x → ¬BelowDeny now db p a x →
        LineAdmits now db p a x doc := by
  by_cases hp : p = ""
  · subst hp
    constructor
    · exact fun _ x _ _ hx => absurd hx (not_belowAllow_empty x)
    · exact fun _ x hx => absurd ((mem_resolve_iff h x).mp hx).1 (not_belowAllow_empty x)
  · constructor
    · intro hacc x doc hdoc hallow hdeny
      have hx : x ∈ ids := (mem_resolve_iff h x).mpr ⟨hallow, hdeny⟩
      exact (accepts_iff hdoc hp).mp (hacc x hx (by rw [hdoc]; rfl))
    · intro hline x hx hsome
      obtain ⟨doc, hdoc⟩ := Option.isSome_iff_exists.mp hsome
      obtain ⟨hallow, hdeny⟩ := (mem_resolve_iff h x).mp hx
      exact (accepts_iff hdoc hp).mpr (hline x doc hdoc hallow hdeny)

end Spec

def grantDoc (id p rid effect : String) : Doc :=
  [("id", .str id), ("content_type", .str grantContentType), ("grantee_type", .str "user"),
   ("grantee_id", .str p), ("resource_id", .str rid), ("state", .str "active"),
   ("effect", .str effect), ("can_read", .bool true)]

def movedNode : Node :=
  hereNode.run
    [.putArtifact [("id", .str "c1")] true false,
     .putArtifact [("id", .str "c2")] true false,
     .putArtifact [("id", .str "x"), ("collection_id", .str "c1")] true false,
     .putArtifact [("id", .str "x"), ("collection_id", .str "c2")] true false,
     .putArtifact (grantDoc "g" "u" "c2" "allow") true false]

/-- Whether the gate returns a grant. -/
def acceptsB (now : Val → Bool) (db : Store) (p id action : String) : Bool :=
  (checkAccess now db p id action).isOk

theorem accepts_iff_acceptsB {now : Val → Bool} {p action : String} :
    Accepts now db p id action ↔ acceptsB now db p id action = true := by
  unfold Accepts acceptsB
  cases checkAccess now db p id action <;> simp [Except.isOk, Except.toBool]

theorem movedNode_resolve : ∃ ids, resolve (fun _ => true) movedNode.db "u" Action.read.name = .ok ids ∧
    "x" ∈ ids ∧ (docOf movedNode.db "x").isSome = true ∧
    acceptsB (fun _ => true) movedNode.db "u" "x" Action.read.name = false := by
  have h : (match resolve (fun _ => true) movedNode.db "u" Action.read.name with
      | .ok ids => decide ("x" ∈ ids) && (docOf movedNode.db "x").isSome &&
          !acceptsB (fun _ => true) movedNode.db "u" "x" Action.read.name
      | .error _ => false) = true := by decide +kernel
  cases hr : resolve (fun _ => true) movedNode.db "u" Action.read.name with
  | error e =>
    rw [hr] at h
    cases h
  | ok ids =>
    rw [hr] at h
    simp only [Bool.and_eq_true, decide_eq_true_eq, Bool.not_eq_true'] at h
    exact ⟨ids, rfl, h.1.1, h.1.2, h.2⟩

theorem movedNode_exceeds_gate :
    ¬ ∀ (now : Val → Bool) (db : Store) (p : String) (a : Action) (ids : List String),
      resolve now db p a.name = .ok ids →
        ∀ x ∈ ids, (docOf db x).isSome → Accepts now db p x a.name := by
  intro h
  obtain ⟨ids, hr, hx, hdoc, hgate⟩ := movedNode_resolve
  have hacc := accepts_iff_acceptsB.mp (h _ _ _ .read ids hr "x" hx hdoc)
  rw [hgate] at hacc
  cases hacc

theorem resolve_within_gate_iff_movedNode :
    ∃ ids, resolve (fun _ => true) movedNode.db "u" Action.read.name = .ok ids ∧
      ((∀ x ∈ ids, (docOf movedNode.db x).isSome →
          Accepts (fun _ => true) movedNode.db "u" x Action.read.name) ↔
        ∀ x doc, docOf movedNode.db x = some doc →
          BelowAllow (fun _ => true) movedNode.db "u" .read x →
          ¬BelowDeny (fun _ => true) movedNode.db "u" .read x →
          LineAdmits (fun _ => true) movedNode.db "u" .read x doc) := by
  obtain ⟨ids, hr, -⟩ := movedNode_resolve
  exact ⟨ids, hr, resolve_within_gate_iff hr⟩

end Mantle
