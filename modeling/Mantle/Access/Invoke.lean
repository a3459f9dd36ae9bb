import Mantle.Access.Commons
import Mantle.Base.Cones
import Mantle.Db.Documented

/-!
# Mantle.Access.Invoke — the invoke light cone and the one resolver

`invokable_resources` goes along origin edges whatever their masks, to collections only; the resolver along those that
propagate invoke, to members of every type.
-/

namespace Mantle

open Relation

section Invoke

variable (now : Val → Bool) (db : Store) (p : String)

def InvokeSpeaks (allow : Bool) (rid : String) : Prop :=
  p ≠ "" ∧ ∃ d ∈ invokeDocs now db p, (docMask d).isAllow = allow ∧ rid = (d.get "resource_id").pyStr

/-- What `invokable_resources` is spanned by. -/
def invokeCone : Cone String where
  step := CollectionStep db
  allow := InvokeSpeaks now db p true
  deny := InvokeSpeaks now db p false

def resolverCone (a : Action) : Cone String where
  step := OriginStep db a
  allow := HoldsAllow now db p a
  deny := HoldsDeny now db p a

def IsCollection (v : String) : Prop :=
  ∃ row, db.vertex.lookup v = some row ∧ row.ct.eqStr collectionContentType = true

/-- Where the invoke cone and the resolver's are one: an origin edge out of what both hold propagates invoke, or its
collection is allowed or denied by another way; and one that propagates invoke leads to a collection or a granted
resource that no line denies, or to what is denied. -/
structure ConesMeet : Prop where
  granted : ∀ s, InvokeSpeaks now db p true s → ¬(invokeCone now db p).Below (InvokeSpeaks now db p false) s →
    BelowAllow now db p .invoke s ∧ ¬BelowDeny now db p .invoke s
  resolved : ∀ s, HoldsAllow now db p .invoke s → ¬BelowDeny now db p .invoke s →
    (invokeCone now db p).Holds s
  collections : ∀ u v, (invokeCone now db p).Holds u → (resolverCone now db p .invoke).Holds u →
    CollectionStep db u v → ¬(invokeCone now db p).Below (InvokeSpeaks now db p false) v →
    ¬BelowDeny now db p .invoke v ∧ (OriginStep db .invoke u v ∨ BelowAllow now db p .invoke v)
  members : ∀ u v, (invokeCone now db p).Holds u → (resolverCone now db p .invoke).Holds u →
    OriginStep db .invoke u v → ¬BelowDeny now db p .invoke v →
    ¬(invokeCone now db p).Below (InvokeSpeaks now db p false) v ∧
      (IsCollection db v ∨ InvokeSpeaks now db p true v)

end Invoke

section Spec

variable {now : Val → Bool} {db : Store} {p x : String}

theorem mem_invokableResources : x ∈ invokableResources now db p ↔ (invokeCone now db p).Holds x := by
  have hcone : ∀ allow, p ≠ "" →
      (x ∈ ((invokeDocs now db p).filter fun d => (docMask d).isAllow == allow).flatMap (resourceCone db) ↔
        (invokeCone now db p).Below (InvokeSpeaks now db p allow) x) := by
    intro allow hp
    unfold Cone.Below InvokeSpeaks
    simp only [List.mem_flatMap, List.mem_filter, beq_iff_eq, resourceCone, mem_collectionsBelow]
    constructor
    · rintro ⟨d, ⟨hd, ha⟩, hline⟩
      exact ⟨_, ⟨hp, d, hd, ha, rfl⟩, hline⟩
    · rintro ⟨s, ⟨-, d, hd, ha, rfl⟩, hline⟩
      exact ⟨d, ⟨hd, ha⟩, hline⟩
  unfold invokableResources Cone.Holds
  by_cases hp : p = ""
  · rw [if_pos hp]
    refine ⟨fun h => (by cases h), ?_⟩
    rintro ⟨⟨s, hs, -⟩, -⟩
    exact absurd hp hs.1
  · rw [if_neg hp, List.mem_filter, decide_eq_true_eq, hcone true hp, hcone false hp]
    rfl

theorem mem_resolve_cone {a : Action} {ids : List String} (h : resolve now db p a.name = .ok ids) :
    x ∈ ids ↔ (resolverCone now db p a).Holds x := mem_resolve_iff h x

theorem OriginStep.collection (hs : EdgesSound db) {a : Action} {u v : String} (h : OriginStep db a u v)
    (hv : IsCollection db v) : CollectionStep db u v := by
  obtain ⟨key, r, hr, hl, hsrc, hdst, horigin, -, -⟩ := h
  refine ⟨hv, key, r, hr, hdst, hl, ?_, hsrc⟩
  have hplain : r.props.val.get "is_origin" = .none := by
    rw [← hs.plain key r hr]
    unfold blobOf Doc.get
    rw [Doc.find?_without_of _ (by decide)]
    rfl
  unfold ERow.isOriginEdge edgeProp at horigin
  rw [hplain] at horigin
  have hflag := hs.flagged key r hr
  simp only [List.mem_cons, List.not_mem_nil, or_false] at hflag
  rcases hflag with ho | ho | ho
  · rw [ho] at horigin
    cases horigin
  · rw [ho] at horigin
    cases horigin
  · exact ho

/-- **The two cones agree** exactly where they meet. -/
theorem invoke_cones_agree_iff (hs : EdgesSound db) {ids : List String}
    (h : resolve now db p Action.invoke.name = .ok ids) :
    (∀ x, x ∈ invokableResources now db p ↔ x ∈ ids) ↔ ConesMeet now db p := by
  simp only [mem_invokableResources, mem_resolve_cone h]
  rw [Cone.eq_iff]
  constructor
  · rintro ⟨hf, hb⟩
    refine ⟨hf.seeds, hb.seeds, fun u v hi hr hstep hd => ?_, fun u v hi hr hstep hd => ?_⟩
    · obtain ⟨hallow, hdeny⟩ := hf.steps u v hi hr hstep hd
      exact ⟨hdeny, .inr hallow⟩
    · obtain ⟨hallow, hdeny⟩ := hb.steps u v hr hi hstep hd
      refine ⟨hdeny, ?_⟩
      rcases Cone.below_iff.mp hallow with hseed | ⟨w, -, hlast⟩
      · exact .inr hseed
      · exact .inl hlast.1
  · rintro ⟨hgranted, hresolved, hcollections, hmembers⟩
    refine ⟨⟨hgranted, fun u v hi hr hstep hd => ?_⟩, ⟨hresolved, fun u v hr hi hstep hd => ?_⟩⟩
    · obtain ⟨hdeny, hway⟩ := hcollections u v hi hr hstep hd
      refine ⟨?_, hdeny⟩
      rcases hway with hconducts | hallow
      · exact Cone.Below.tail (K := resolverCone now db p .invoke) hr.1 hconducts
      · exact hallow
    · obtain ⟨hdeny, hend⟩ := hmembers u v hi hr hstep hd
      refine ⟨?_, hdeny⟩
      rcases hend with hv | hseed
      · exact Cone.Below.tail (K := invokeCone now db p) hi.1 (hstep.collection hs hv)
      · exact .seed hseed

end Spec

def crystalActs (type : String) : List Act :=
  [.putArtifact [("id", .str "crystal"), ("content_type", .str collectionContentType)] true false,
   .putArtifact [("id", .str "organon"), ("content_type", .str type), ("collection_id", .str "crystal")] true false,
   .putArtifact (grantDoc "g" "u" "crystal" "allow" ++ [("can_invoke", .bool true)]) true false]

def crystalNode (type : String) : Node := hereNode.run (crystalActs type)

theorem invoke_cones_agree_nested : ∃ ids,
    resolve (fun _ => true) (crystalNode collectionContentType).db "u" Action.invoke.name = .ok ids ∧
    "organon" ∈ ids ∧ ConesMeet (fun _ => true) (crystalNode collectionContentType).db "u" := by
  have hids : resolve (fun _ => true) (crystalNode collectionContentType).db "u" Action.invoke.name =
      .ok ["crystal", "organon"] := by decide +kernel
  have hinvoke : invokableResources (fun _ => true) (crystalNode collectionContentType).db "u" =
      ["crystal", "organon"] := by decide +kernel
  have hs : EdgesSound (crystalNode collectionContentType).db := edgesSound_run _ _ (crystalActs _)
  refine ⟨_, hids, by decide, (invoke_cones_agree_iff hs hids).mp fun x => ?_⟩
  rw [hinvoke]

theorem invoke_cones_differ : ∃ ids,
    resolve (fun _ => true) (crystalNode "organon").db "u" Action.invoke.name = .ok ids ∧ "organon" ∈ ids ∧
    "organon" ∉ invokableResources (fun _ => true) (crystalNode "organon").db "u" := by
  have hids : resolve (fun _ => true) (crystalNode "organon").db "u" Action.invoke.name =
      .ok ["crystal", "organon"] := by decide +kernel
  have hinvoke : invokableResources (fun _ => true) (crystalNode "organon").db "u" = ["crystal"] := by decide +kernel
  refine ⟨_, hids, by decide, ?_⟩
  rw [hinvoke]
  decide

end Mantle
