import Mantle.Access.Invalidate
import Mantle.Access.Narrow
import Mantle.Db.Authored

/-!
# Mantle.Access.Entity — grants as they are built and stored

A grant entity is known by its attributes; what is stored reads as what was built.
-/

namespace Mantle

open Tx

/-! ### The entity -/

abbrev GrantAttrs := String → Val

/-- What `to_dict` writes, in its order. -/
def grantFields : List String :=
  ["id", "created_time", "modified_time", "resource_id", "grantee_type", "grantee_id", "granted_by", "effect",
    "can_create", "can_read", "can_update", "can_delete", "can_evict", "can_invoke", "can_add", "can_share",
    "can_admin", "requires_identity", "read_requires_identity", "write_requires_identity",
    "invoke_requires_identity", "target_entity", "target_entity_type", "max_claims", "claims_count", "key_hint",
    "last_used_at", "requires_nonce", "state", "name", "notes", "granted_at", "expires_at", "accepted_by",
    "accepted_at", "revoked_by", "revoked_at"]

/-- What the constructor and `from_dict` put for an absent attribute. -/
def grantDefault (k : String) : Val :=
  if k ∈ ["resource_id", "grantee_type", "grantee_id", "granted_by"] then .str ""
  else if k = "effect" then .str "allow"
  else if k = "can_read" then .bool true
  else if k ∈ ["can_create", "can_update", "can_delete", "can_evict", "can_invoke", "can_add", "can_share",
    "can_admin", "requires_identity", "requires_nonce"] then .bool false
  else if k = "claims_count" then .int 0
  else if k = "state" then .str "active"
  else .none

def effectOf : Val → Except AccessErr String
  | .str s => .ok (if normText s = "" then "allow" else normText s)
  | v => if v.truthy then .error .attributeError else .ok "allow"

namespace GrantAttrs

def fromDict (d : Doc) : Except AccessErr GrantAttrs :=
  (effectOf ((d.find? "effect").getD (.str "allow"))).map fun effect k =>
    if k = "effect" then .str effect else (d.find? k).getD (grantDefault k)

/-- `_to_grant_doc`: the attributes that are set, and the discriminators. -/
def toDoc (g : GrantAttrs) : Doc :=
  (grantFields.filterMap fun k => if (g k).isNone then none else some (k, g k)) ++
    [("_type", .str "Grant"), ("content_type", .str grantContentType)]

/-- `setattr`. -/
def set (g : GrantAttrs) (k : String) (v : Val) : GrantAttrs := Function.update g k v

/-- An entity with some attributes given and the others as the constructor has them. -/
def build (given : Doc) : GrantAttrs := fun k => (given.find? k).getD (grantDefault k)

theorem find?_filterMap (g : GrantAttrs) (k : String) (tail : Doc) : ∀ fields : List String,
    Doc.find? ((fields.filterMap fun k => if (g k).isNone then none else some (k, g k)) ++ tail) k =
      if k ∈ fields ∧ (g k).isNone = false then some (g k) else tail.find? k
  | [] => by simp
  | f :: fields => by
    have ih := find?_filterMap g k tail fields
    rw [List.filterMap_cons]
    by_cases hn : (g f).isNone = true
    · simp only [hn, if_true]
      rw [ih]
      by_cases hk : k = f
      · subst hk
        simp [hn]
      · simp [hk]
    · rw [Bool.not_eq_true] at hn
      simp only [hn, Bool.false_eq_true, if_false, List.cons_append]
      by_cases hk : f = k
      · subst hk
        simp [Doc.find?, hn]
      · rw [Doc.find?, if_neg hk, ih]
        simp [Ne.symm hk]

theorem toDoc_find? (g : GrantAttrs) {k : String} (hk : k ∈ grantFields) :
    g.toDoc.find? k = if (g k).isNone then none else some (g k) := by
  have htail : Doc.find? [("_type", .str "Grant"), ("content_type", .str grantContentType)] k = none := by
    have h1 : "_type" ≠ k := by
      rintro rfl
      revert hk
      decide
    have h2 : "content_type" ≠ k := by
      rintro rfl
      revert hk
      decide
    simp [Doc.find?, h1, h2]
  unfold toDoc
  rw [find?_filterMap, htail]
  cases (g k).isNone <;> simp [hk]

theorem toDoc_other (g : GrantAttrs) {k : String} (hk : k ∉ grantFields) :
    g.toDoc.find? k =
      Doc.find? [("_type", .str "Grant"), ("content_type", .str grantContentType)] k := by
  unfold toDoc
  rw [find?_filterMap]
  simp [hk]

theorem toDoc_get (g : GrantAttrs) {k : String} (hk : k ∈ grantFields) : g.toDoc.get k = g k := by
  unfold Doc.get
  rw [toDoc_find? g hk]
  cases hg : g k <;> simp [Val.isNone]

end GrantAttrs

theorem flag_mem_grantFields (a : Action) : a.flag ∈ grantFields := by
  cases a <;> decide

theorem grant_ofDoc_eq (d : Doc) : Grant.ofDoc d =
    (effectOf ((d.find? "effect").getD (.str "allow"))).map fun effect =>
      { resourceId := (d.find? "resource_id").getD (.str "")
        effect := effect
        flag := fun a => d.bit a } := by
  unfold Grant.ofDoc effectOf Doc.bit
  cases (d.find? "effect").getD (.str "allow") with
  | str s => rfl
  | _ =>
    dsimp only
    split_ifs <;> rfl

/-! ### The stored grant -/

/-- `create_grant`, and `update_grant` alike. -/
def putGrant (g : GrantAttrs) : DbM Doc := putArtifact g.toDoc true false

structure GrantStored (g : GrantAttrs) (id : String) (db db' : Store) : Prop where
  edge : db'.edge = db.edge
  others : ∀ id', id' ≠ id → db'.vertex.lookup id' = db.vertex.lookup id'
  row : ∃ d, grantAt db' id = some d ∧
    ∀ k ∈ grantFields, k ≠ "created_time" → d.find? k = (g.toDoc.find? k).map Val.norm

theorem grantStored_of_doc {g : GrantAttrs} {id : String} {db db' : Store} (h : DocStored g.toDoc id db db') :
    GrantStored g id db db' := by
  obtain ⟨r, hr, hct, hfields⟩ := h.row
  refine ⟨h.edge, h.others, r.doc.val, ?_, ?_⟩
  · have hget : g.toDoc.get "content_type" = .str grantContentType := by
      unfold Doc.get
      rw [GrantAttrs.toDoc_other g (by decide)]
      rfl
    rw [hget] at hct
    have : r.ct = .str grantContentType := (Except.ok.inj hct).symm
    unfold grantAt
    rw [hr]
    simp [VRow.isGrant, this, Val.eqStr]
  · intro k hk hne
    refine hfields k ?_
    intro hmem
    simp only [stampKeys, List.mem_cons, List.not_mem_nil, or_false] at hmem
    rcases hmem with rfl | rfl | rfl | rfl
    · revert hk; decide
    · revert hk; decide
    · exact hne rfl
    · revert hk; decide

theorem putGrant_tables (g : GrantAttrs) {n : Node} (hi : n.inTxn = false) :
    Runs (putGrant g) n
      (fun _ n' => (∃ id, g "id" = .str id ∧ GrantStored g id n.db n'.db) ∧ n'.inTxn = false)
      fun n' => SameTables n.db n'.db ∧ n'.inTxn = false := by
  have hc : (g.toDoc.get "content_ref").truthy = false := by
    unfold Doc.get
    rw [GrantAttrs.toDoc_other g (by decide)]
    rfl
  -- a grant lies in no collection
  have hplace : placement g.toDoc = none := by
    unfold placement
    have : g.toDoc.get "collection_id" = .none := by
      unfold Doc.get
      rw [GrantAttrs.toDoc_other g (by decide)]
      rfl
    simp [this, Val.truthy]
  refine (putAuthored_stored hc hplace hi).imp ?_
  rintro _ n' ⟨⟨id, hid, hst⟩, hin⟩
  rw [GrantAttrs.toDoc_get g (by decide)] at hid
  exact ⟨⟨id, hid, grantStored_of_doc hst⟩, hin⟩

end Mantle
