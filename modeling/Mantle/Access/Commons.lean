import Mantle.Access.Frame

/-!
# Mantle.Access.Commons — public reading, and how far it is attenuated

What gates a collection, what is public, who may read and what may be invoked.
-/

namespace Mantle

open Relation

/-! ### The decisions -/

section Decisions

variable (now : Val → Bool) (db : Store)

/-- `_grant_docs(state="active")`, less what is expired. -/
def activeGrantDocs : List Doc :=
  ((sortedVertices db).filter fun e => e.2.isGrant && inForce now e.2.doc.val).map fun e => e.2.doc.val

def resourceCone (d : Doc) : List String :=
  (d.get "resource_id").pyStr :: collectionsBelow db (d.get "resource_id").pyStr

/-- `gated_collections`: effect-blind. -/
def gatedCollections : List String :=
  ((activeGrantDocs now db).filter fun d =>
    (d.get "resource_id").truthy && (docMask d).carries .read).flatMap (resourceCone db)

def isPublic (doc : Doc) : Bool :=
  match groundingOf doc with
  | none => true
  | some g => decide (g ∉ gatedCollections now db) || isMadePublic now db doc

/-- The principal's light cone holds the artifact's grounding, or the artifact. -/
def inCone (p : String) (doc : Doc) : Bool :=
  (groundingOf doc).any (fun g => decide (g ∈ reachableCollections now db p)) ||
    decide (idText doc ∈ reachableCollections now db p)

def canRead (doc : Doc) (p : String) : Bool :=
  !doc.isEmpty && (isPublic now db doc || inCone now db p doc)

def invokeDocs (p : String) : List Doc :=
  (activeGrantDocs now db).filter fun d =>
    (d.get "grantee_id").eqStr p && (d.get "grantee_type").eqStr "user" &&
      (d.get "resource_id").truthy && (docMask d).carries .invoke

def invokableResources (p : String) : List String :=
  if p = "" then []
  else
    let cones := fun allow => ((invokeDocs now db p).filter fun d => (docMask d).isAllow == allow).flatMap
      (resourceCone db)
    (cones true).filter fun x => decide (x ∉ cones false)

end Decisions

theorem mem_activeGrantDocs {now : Val → Bool} {db : Store} {d : Doc} : d ∈ activeGrantDocs now db ↔
    ∃ id, grantAt db id = some d ∧ inForce now d = true := by
  unfold activeGrantDocs grantAt
  simp only [List.mem_map, List.mem_filter, Prod.exists, mem_sortedVertices, Bool.and_eq_true,
    Option.bind_eq_some_iff, Option.ite_none_right_eq_some, Option.some.injEq]
  constructor
  · rintro ⟨id, row, ⟨hrow, hg, hf⟩, rfl⟩
    exact ⟨id, ⟨row, hrow, hg, rfl⟩, hf⟩
  · rintro ⟨id, ⟨row, hrow, hg, rfl⟩, hf⟩
    exact ⟨id, row, ⟨hrow, hg, hf⟩, rfl⟩

theorem isMadePublic_eq (now : Val → Bool) (db : Store) (doc : Doc) :
    isMadePublic now db doc = inCone now db publicPrincipal doc := rfl

/-! ### Attenuation -/

section Attenuation

variable (now : Val → Bool) (db : Store)

/-- A read-allow grant of the commons reaches the id along origin containment edges that all propagate read, past no
read-carrying deny. -/
inductive Attenuated : String → Prop
  | granted {r : String} (hallow : CheckAllows now db publicPrincipal .read r)
      (hdeny : ¬CheckDenies now db publicPrincipal .read r) : Attenuated r
  | down {u v : String} (hu : Attenuated u) (hstep : OriginStep db .read u v)
      (hdeny : ¬CheckDenies now db publicPrincipal .read v) : Attenuated v

def IsArtifact (id : String) (doc : Doc) : Prop := docOf db id = some doc ∧ idText doc = id

def ReachesArtifact (id : String) (doc : Doc) : Prop :=
  ¬CheckDenies now db publicPrincipal .read id ∧
    (Attenuated now db id ∨ Attenuated now db (rootIn doc id))

/-- A line of collections from a resource the commons may read, by origin edges of any mask, that has been attenuated so
far. -/
inductive SoundLine : String → Prop
  | granted {rid : String} (h : rid ∈ getActiveCollectionIdsForUser now db publicPrincipal) :
      SoundLine rid
  | link {u v : String} (hu : SoundLine u) (hstep : CollectionStep db u v)
      (hv : ∀ doc, IsArtifact db v doc → ReachesArtifact now db v doc) : SoundLine v

/-- No sound line breaks: what the commons are granted, and whatever comes next on a line, is reached by an attenuated
way. -/
structure LinesHold : Prop where
  granted : ∀ rid ∈ getActiveCollectionIdsForUser now db publicPrincipal, ∀ doc,
    IsArtifact db rid doc → ReachesArtifact now db rid doc
  links : ∀ u v doc, SoundLine now db u → CollectionStep db u v → IsArtifact db v doc →
    ReachesArtifact now db v doc
  grounded : ∀ g id doc, SoundLine now db g → groundingOf doc = some g → IsArtifact db id doc →
    ReachesArtifact now db id doc

end Attenuation

section Spec

variable {now : Val → Bool} {db : Store} {doc : Doc}

theorem inCone_iff {p : String} (hp : p ≠ "") : inCone now db p doc = true ↔
    ∃ rid ∈ getActiveCollectionIdsForUser now db p, ∃ c,
      ReflTransGen (CollectionStep db) rid c ∧ (groundingOf doc = some c ∨ idText doc = c) := by
  unfold inCone
  simp only [Bool.or_eq_true, decide_eq_true_eq, Option.any_eq_true_iff_get, mem_reachableCollections hp]
  constructor
  · rintro (h | ⟨rid, hrid, hline⟩)
    · obtain ⟨hs, rid, hrid, hline⟩ := h
      exact ⟨rid, hrid, _, hline, .inl (Option.some_get hs).symm⟩
    · exact ⟨rid, hrid, _, hline, .inr rfl⟩
  · rintro ⟨rid, hrid, c, hline, hc | hc⟩
    · exact .inl ⟨by simp [hc], rid, hrid, by simpa [hc] using hline⟩
    · exact .inr ⟨rid, hrid, hc ▸ hline⟩

theorem SoundLine.line {c : String} (h : SoundLine now db c) :
    ∃ rid ∈ getActiveCollectionIdsForUser now db publicPrincipal,
      ReflTransGen (CollectionStep db) rid c := by
  induction h with
  | granted h => exact ⟨_, h, .refl⟩
  | link _ hstep _ ih =>
    obtain ⟨rid, hrid, hline⟩ := ih
    exact ⟨rid, hrid, hline.tail hstep⟩

theorem LinesHold.sound (h : LinesHold now db) {rid c : String}
    (hrid : rid ∈ getActiveCollectionIdsForUser now db publicPrincipal)
    (hline : ReflTransGen (CollectionStep db) rid c) : SoundLine now db c := by
  induction hline with
  | refl => exact .granted hrid
  | tail _ hstep ih => exact ih.link hstep fun doc hdoc => h.links _ _ doc ih hstep hdoc

/-- **When publicity is attenuated like any other grant**: exactly when no sound line breaks. -/
theorem madePublic_attenuated_iff (now : Val → Bool) (db : Store) :
    (∀ id doc, IsArtifact db id doc → isMadePublic now db doc = true → ReachesArtifact now db id doc) ↔
      LinesHold now db := by
  simp only [isMadePublic_eq, inCone_iff (show publicPrincipal ≠ "" by decide)]
  constructor
  · intro h
    refine ⟨?_, ?_, ?_⟩
    · intro rid hrid doc hdoc
      exact h rid doc hdoc ⟨rid, hrid, rid, .refl, .inr hdoc.2⟩
    · intro u v doc hu hstep hdoc
      obtain ⟨rid, hrid, hline⟩ := hu.line
      exact h v doc hdoc ⟨rid, hrid, v, hline.tail hstep, .inr hdoc.2⟩
    · intro g id doc hg hground hdoc
      obtain ⟨rid, hrid, hline⟩ := hg.line
      exact h id doc hdoc ⟨rid, hrid, g, hline, .inl hground⟩
  · rintro h id doc hdoc ⟨rid, hrid, c, hline, hc | hc⟩
    · exact h.grounded c id doc (h.sound hrid hline) hc hdoc
    · obtain rfl : c = id := hc.symm.trans hdoc.2
      -- the artifact is itself a collection of the line: its first, or one placed in another
      cases hline with
      | refl => exact h.granted _ hrid doc hdoc
      | tail hline hstep => exact h.links _ _ doc (h.sound hrid hline) hstep hdoc

end Spec

def sealedNode : Node :=
  hereNode.run
    [.putArtifact [("id", .str "c"), ("content_type", .str collectionContentType)] true false,
     .putArtifact [("id", .str "d"), ("content_type", .str collectionContentType)] true false,
     .addEdges [.tuple (.str "c") (.str "d") (.str containsLabel)
       [("is_origin", .int 1), ("propagate", .str "update")]] 500 true,
     .putArtifact [("id", .str "x"), ("collection_id", .str "d")] true false,
     .putArtifact (grantDoc "g" publicPrincipal "c" "allow") true false]

theorem sealedNode_attenuated {v : String} (h : Attenuated (fun _ => true) sealedNode.db v) :
    v = "c" := by
  induction h with
  | @granted r hallow _ =>
    obtain ⟨d, hd, -⟩ := hallow
    obtain ⟨hd, hcond⟩ := List.mem_filter.mp hd
    have hdocs : (grantDocsBy sealedNode.db publicPrincipal).all
        (fun d => (d.get "resource_id").eqStr "c") = true := by decide +kernel
    rw [Bool.and_eq_true] at hcond
    have hc := eqStr_iff.mp (List.all_eq_true.mp hdocs d hd)
    have hr := eqStr_iff.mp hcond.2
    rw [hc] at hr
    exact (Val.str.inj hr).symm
  | @down u v _ hstep _ ih =>
    subst ih
    have hnone : conductingChildren sealedNode.db .read "c" = .ok [] := by decide +kernel
    obtain ⟨cs, hcs, hv⟩ := (child_iff hnone).mpr hstep
    rw [hnone] at hcs
    cases hcs
    cases hv

theorem sealedNode_unattenuated :
    ¬ ∀ (now : Val → Bool) (db : Store) (id : String) (doc : Doc), IsArtifact db id doc →
      isMadePublic now db doc = true → ReachesArtifact now db id doc := by
  intro h
  have hdoc : (docOf sealedNode.db "x").any (fun doc => decide (idText doc = "x") &&
      isMadePublic (fun _ => true) sealedNode.db doc && decide (rootIn doc "x" = "x")) = true := by
    decide +kernel
  cases hx : docOf sealedNode.db "x" with
  | none =>
    rw [hx] at hdoc
    cases hdoc
  | some doc =>
    rw [hx] at hdoc
    simp only [Option.any_some, Bool.and_eq_true, decide_eq_true_eq] at hdoc
    obtain ⟨⟨hid, hpub⟩, hroot⟩ := hdoc
    obtain ⟨-, hatt | hatt⟩ := h _ _ "x" doc ⟨hx, hid⟩ hpub
    · exact absurd (sealedNode_attenuated hatt) (by decide)
    · rw [hroot] at hatt
      exact absurd (sealedNode_attenuated hatt) (by decide)

end Mantle
