import Mantle.Db.Boundary

/-!
# Mantle.Db.Seal — what sealing hides and what a reader gets back

A reader who holds the keys sees a document through its seal: the context's clear keys, then the sealed ones.
-/

namespace Mantle

open Json

variable {b : Bool} {blob k : String} {d'' f t : Doc} {p v : Val} {parts : Val × Val}

section Dictionaries

variable {float : String → Flt}

theorem find?_setDefaults (k : String) : ∀ (fields ctx : Doc),
    (setDefaults ctx fields).find? k = (ctx.find? k).or (fields.find? k)
  | [], ctx => by simp [setDefaults, Doc.find?]
  | (k', v) :: fields, ctx => by
    have hstep : setDefaults ctx ((k', v) :: fields) =
        setDefaults (if (ctx.find? k').isSome then ctx else ctx.set k' v) fields := rfl
    rw [hstep, find?_setDefaults k fields, Doc.find?]
    by_cases hsome : (ctx.find? k').isSome = true
    · rw [if_pos hsome]
      by_cases hk : k' = k
      · subst hk
        obtain ⟨w, hw⟩ := Option.isSome_iff_exists.mp hsome
        rw [hw]
        rfl
      · rw [if_neg hk]
    · rw [if_neg hsome, Doc.find?_set]
      by_cases hk : k' = k
      · subst hk
        rw [Option.not_isSome_iff_eq_none.mp hsome, if_pos rfl, if_pos rfl]
        rfl
      · rw [if_neg hk, if_neg fun h => hk h.symm]

theorem JsonDoc.setDefaults : ∀ {fields ctx : Doc}, JsonDoc float ctx → JsonDoc float fields →
    JsonDoc float (setDefaults ctx fields)
  | [], _, h, _ => h
  | (k, v) :: fields, ctx, h, hf => by
    have hstep : JsonDoc float (if (ctx.find? k).isSome then ctx else ctx.set k v) := by
      split_ifs
      · exact h
      · exact h.set k (hf.json (k, v) List.mem_cons_self)
    exact hstep.setDefaults hf.tail

theorem get_restoreFields (k : String) : ∀ {top : Doc}, KeysNodup top → ∀ raw : Doc,
    (restoreFields raw top).get k =
      if (raw.get k).truthy then raw.get k else (top.find? k).getD (raw.get k)
  | [], _, raw => by simp [restoreFields, Doc.find?]
  | (k', v) :: top, h, raw => by
    unfold KeysNodup at h
    rw [List.map_cons, List.nodup_cons] at h
    have hstep : restoreFields raw ((k', v) :: top) =
        restoreFields (if (raw.get k').truthy then raw else raw.set k' v) top := rfl
    rw [hstep, get_restoreFields k h.2, Doc.find?]
    by_cases hk : k' = k
    · subst hk
      rw [if_pos rfl, Doc.find?_of_notMem h.1]
      by_cases ht : (raw.get k').truthy = true
      · simp only [ht, if_true]
      · simp only [ht, Bool.false_eq_true, if_false, Doc.get_set_self, Option.getD_none, Option.getD_some, ite_self]
    · rw [if_neg hk]
      have hget : (if (raw.get k').truthy then raw else raw.set k' v).get k = raw.get k := by
        split_ifs
        · rfl
        · exact Doc.get_set_of_ne raw v fun he => hk he.symm
      rw [hget]

theorem find?_restoreFields (k : String) : ∀ (top raw : Doc), k ∉ top.map Prod.fst →
    (restoreFields raw top).find? k = raw.find? k
  | [], _, _ => rfl
  | (k', v) :: top, raw, h => by
    rw [List.map_cons, List.mem_cons, not_or] at h
    have hstep : restoreFields raw ((k', v) :: top) =
        restoreFields (if (raw.get k').truthy then raw else raw.set k' v) top := rfl
    rw [hstep, find?_restoreFields k top _ h.2]
    split_ifs
    · rfl
    · rw [Doc.find?_set, if_neg h.1]

theorem JsonDoc.restoreFields : ∀ {top raw : Doc}, JsonDoc float raw → JsonDoc float top →
    JsonDoc float (restoreFields raw top)
  | [], _, h, _ => h
  | (k, v) :: top, raw, h, ht => by
    have hstep : JsonDoc float (if (raw.get k).truthy then raw else raw.set k v) := by
      split_ifs
      · exact h
      · exact h.set k (ht.json (k, v) List.mem_cons_self)
    exact hstep.restoreFields ht.tail

end Dictionaries

/-! ### Contexts -/

section Contexts

variable {float : String → Flt} (hf : ∀ t, ReadsFloat float (float t)) {d d' ctx : Doc} {b : Bool}

theorem loads_empty : Json.loads float "" = none := by
  simp [Json.loads, skipWs, value, literal, literals, number, intPart, digits]

include hf in
theorem contextDict_json (h : JsonDoc float d) (hc : contextDict float d = (some ctx, b)) : JsonDoc float ctx := by
  unfold contextDict at hc
  have hctx := h.get "context"
  cases hv : d.get "context" with
  | dict items =>
    rw [hv] at hc hctx
    cases hc
    exact (jsonDoc_docOfItems hctx).1
  | str s =>
    rw [hv] at hc
    dsimp only at hc
    split_ifs at hc
    · cases hc
      exact JsonDoc.nil
    · split at hc
      · rename_i items hl
        cases hc
        exact (jsonDoc_docOfItems (loads_json hf hl)).1
      · cases hc
  | _ =>
    rw [hv] at hc
    dsimp only at hc
    split_ifs at hc
    · cases hc
    · cases hc
      exact JsonDoc.nil

theorem putContext_find? (hp : putContext d ctx b = .ok d') (hk : k ≠ "context") :
    d'.find? k = d.find? k := by
  unfold putContext at hp
  split_ifs at hp
  · obtain ⟨t, -, rfl⟩ := Mantle.map_ok hp
    rw [Doc.find?_set, if_neg hk]
  · cases hp
    rw [Doc.find?_set, if_neg hk]

theorem putContext_get (hp : putContext d ctx b = .ok d') (hk : k ≠ "context") :
    d'.get k = d.get k := by
  unfold Doc.get
  rw [putContext_find? hp hk]

theorem putContext_json (hd : JsonDoc float d) (h : JsonDoc float ctx) (hp : putContext d ctx b = .ok d') :
    JsonDoc float d' := by
  unfold putContext at hp
  split_ifs at hp
  · obtain ⟨t, -, rfl⟩ := Mantle.map_ok hp
    exact hd.set _ (isJson_str t)
  · cases hp
    exact hd.set _ h.toItems

theorem contextDict_putContext (h : JsonDoc float ctx) (hp : putContext d ctx b = .ok d') :
    contextDict float d' = (some ctx, b) := by
  unfold putContext at hp
  unfold contextDict
  split_ifs at hp with hb
  · obtain ⟨t, ht, rfl⟩ := Mantle.map_ok hp
    have hl := h.loads ht
    have hne : t ≠ "" := by
      rintro rfl
      rw [loads_empty] at hl
      cases hl
    rw [Doc.get_set_self]
    dsimp only
    rw [if_neg hne, hl, hb]
    dsimp only
    rw [docOfItems_toItems]
  · cases hp
    rw [Doc.get_set_self]
    dsimp only
    rw [docOfItems_toItems, Bool.not_eq_true _ |>.mp hb]

end Contexts

/-! ### What a reader sees -/

section Seen

variable (float : String → Flt) (A : Crypto)

/-- What the seal of a context holds: fields of the context and of the document. -/
def sealedParts (d ctx : Doc) : Option (Doc × Doc) :=
  if (ctx.find? "sealed").isNone then none
  else
    (openField float A d ((ctx.get "sealed").orElse (.dict []))).bind fun parts =>
      match dictOr parts.1, dictOr parts.2 with
      | .ok f, .ok t => some (f, t)
      | _, _ => none

def seenContext (d : Doc) (k : String) : Option Val :=
  match (contextDict float d).1 with
  | none => none
  | some ctx => (ctx.find? k).or ((sealedParts float A d ctx).bind fun parts => parts.1.find? k)

def seenField (d : Doc) (k : String) : Val :=
  if (d.get k).truthy then d.get k
  else
    (((contextDict float d).1.bind (sealedParts float A d)).bind fun parts => parts.2.find? k).getD (d.get k)

def keyFields : List String := ["root_id", "id", "origin_root", "content_key_principal", "created_by", "collection_id"]

def SameKeys (d d' : Doc) : Prop := ∀ k ∈ keyFields, d'.get k = d.get k

end Seen

section Opening

variable {float : String → Flt} {A R : Crypto} {d d' ctx : Doc}

theorem SameKeys.principal (h : SameKeys d d') : contentKeyPrincipal d' = contentKeyPrincipal d := by
  unfold contentKeyPrincipal
  rw [h "origin_root" (by decide), h "content_key_principal" (by decide), h "created_by" (by decide)]

theorem SameKeys.scope (h : SameKeys d d') : contentKeyScope d' = contentKeyScope d := by
  unfold contentKeyScope
  rw [h "origin_root" (by decide), h "content_key_principal" (by decide), h "collection_id" (by decide),
    h "id" (by decide)]

theorem SameKeys.openField (h : SameKeys d d') (v : Val) : openField float A d' v = openField float A d v := by
  unfold Mantle.openField openSealed
  rw [h.principal, h.scope, h "root_id" (by decide), h "id" (by decide)]

theorem SameKeys.sealedParts (h : SameKeys d d') (ctx : Doc) :
    sealedParts float A d' ctx = sealedParts float A d ctx := by
  unfold Mantle.sealedParts
  rw [h.openField]

def Crypto.OpensIn (R A : Crypto) : Prop :=
  ∀ {a p s b t}, R.openBlob a p s b = .ok t → A.openBlob a p s b = .ok t

def Crypto.SealsFor (R A : Crypto) : Prop :=
  ∀ {p s c t b}, R.sealText p s c t = some b → ∀ a, A.openBlob a p s (.str b) = .ok t

/-- A blob without a scope opens in every scope (the owner-only binding of `decrypt_content`). -/
def Crypto.DualRead (A : Crypto) : Prop :=
  ∀ {a p b t}, A.openBlob a p (.str "") b = .ok t → ∀ s, A.openBlob a p s b = .ok t

def Crypto.NeedsBlob (A : Crypto) : Prop := ∀ {a p s b t}, A.openBlob a p s b = .ok t → b.truthy = true

theorem openField_opensIn (h : R.OpensIn A) (ho : openField float R d v = some parts) :
    openField float A d v = some parts := by
  unfold openField at ho ⊢
  cases v with
  | dict items =>
    unfold openSealed at ho ⊢
    dsimp only at ho ⊢
    split at ho
    · cases ho
    · rename_i principal hp
      obtain ⟨text, htext, hparts⟩ := Option.bind_eq_some_iff.mp ho
      cases hopen : R.openBlob ((d.get "root_id").orElse (d.get "id")) principal (contentKeyScope d)
          ((docOfItems items).get "blob") with
      | error r =>
        rw [hopen] at htext
        cases htext
      | ok text' =>
        rw [hopen] at htext
        cases htext
        rw [h hopen]
        exact hparts
  | _ => cases ho

theorem openedPayload_json (hf : ∀ t, ReadsFloat float (float t)) {plain : String}
    (h : openedPayload float plain = some parts) : IsJson float parts.1 ∧ IsJson float parts.2 := by
  have hnil : IsJson float (.dict []) := isJson_dict ⟨by simp, by simp, by simp⟩ (by simp)
  have hor : ∀ v : Val, IsJson float v → IsJson float (v.orElse (.dict [])) := by
    intro v hv
    unfold Val.orElse
    split_ifs
    · exact hv
    · exact hnil
  unfold openedPayload at h
  split at h
  · cases h
  · rename_i items hl
    have hj := loads_json hf hl
    dsimp only at h
    split_ifs at h
    · cases h
      have hd := (jsonDoc_docOfItems hj).1
      exact ⟨hor _ (hd.get "context"), hor _ (hd.get "doc")⟩
    · cases h
      exact ⟨hj, hnil⟩
  · cases h
    exact ⟨hnil, hnil⟩

theorem openField_json (hf : ∀ t, ReadsFloat float (float t)) (h : openField float A d v = some parts) :
    IsJson float parts.1 ∧ IsJson float parts.2 := by
  unfold openField at h
  cases v with
  | dict items =>
    unfold openSealed at h
    dsimp only at h
    split at h
    · cases h
    · obtain ⟨text, -, hparts⟩ := Option.bind_eq_some_iff.mp h
      exact openedPayload_json hf hparts
  | _ => cases h

theorem dictOr_json (hv : IsJson float v) (h : dictOr v = .ok f) : JsonDoc float f := by
  unfold dictOr Val.orElse at h
  split_ifs at h
  · cases v with
    | dict items =>
      cases h
      exact (jsonDoc_docOfItems hv).1
    | _ => cases h
  · cases h
    exact JsonDoc.nil

theorem sealedParts_of_open (hs : ctx.find? "sealed" = some v)
    (ho : openField float A d (v.orElse (.dict [])) = some parts) (hf : dictOr parts.1 = .ok f)
    (ht : dictOr parts.2 = .ok t) : sealedParts float A d ctx = some (f, t) := by
  unfold sealedParts Doc.get
  rw [hs]
  simp only [Option.isNone_some, Bool.false_eq_true, if_false, Option.getD_some]
  rw [ho]
  simp only [Option.bind_some]
  rw [hf, ht]

theorem sealedParts_json (hf : ∀ t, ReadsFloat float (float t)) (h : sealedParts float A d ctx = some (f, t)) :
    JsonDoc float f ∧ JsonDoc float t := by
  unfold sealedParts at h
  split_ifs at h
  obtain ⟨parts, ho, hparts⟩ := Option.bind_eq_some_iff.mp h
  obtain ⟨hj1, hj2⟩ := openField_json hf ho
  split at hparts
  · rename_i f' t' h1 h2
    cases hparts
    exact ⟨dictOr_json hj1 h1, dictOr_json hj2 h2⟩
  · cases hparts

end Opening

/-! ### Sealing -/

section Sealing

variable {float : String → Flt} {A R : Crypto} {d d' ctx : Doc}

def sealPayload (f t : Doc) : Doc := [("v", .int 2), ("context", .dict f.toItems), ("doc", .dict t.toItems)]

theorem orElse_toItems (f : Doc) : (Val.dict f.toItems).orElse (.dict []) = .dict f.toItems := by
  unfold Val.orElse
  split_ifs with h
  · rfl
  · cases f with
    | nil => rfl
    | cons e f => exact absurd rfl h

@[simp] theorem dictOr_toItems (f : Doc) : dictOr (.dict f.toItems) = .ok f := by
  unfold dictOr
  rw [orElse_toItems]
  dsimp only
  rw [docOfItems_toItems]

theorem openedPayload_sealPayload (hf : JsonDoc float f) (ht : JsonDoc float t) {text : String}
    (h : Doc.dumps .plain (sealPayload f t) = .ok text) :
    openedPayload float text = some (.dict f.toItems, .dict t.toItems) := by
  have hj : JsonDoc float (sealPayload f t) := by
    refine ⟨?_, ?_⟩
    · have hkeys : (sealPayload f t).map Prod.fst = ["v", "context", "doc"] := rfl
      unfold KeysNodup
      rw [hkeys]
      decide
    intro e he
    simp only [sealPayload, List.mem_cons, List.not_mem_nil, or_false] at he
    rcases he with rfl | rfl | rfl
    · exact isJson_int 2
    · exact hf.toItems
    · exact ht.toItems
  unfold openedPayload
  rw [hj.loads h]
  dsimp only
  rw [docOfItems_toItems]
  have hv : (Doc.get (sealPayload f t) "v").eqInt 2 = true := rfl
  have hc : Doc.get (sealPayload f t) "context" = .dict f.toItems := rfl
  have hd : Doc.get (sealPayload f t) "doc" = .dict t.toItems := rfl
  rw [if_pos hv, hc, hd, orElse_toItems, orElse_toItems]

def sealValue (principal : Val) (blob : String) : Val := .dict [(.str "p", principal), (.str "blob", .str blob)]

def clearContext (d ctx : Doc) : Doc := ctx.without (· ∈ sealableKeys d ctx)

def sealedFields (d ctx : Doc) : List String := sealableDocFields d (clearContext d ctx)

/-- The document without them. -/
def clearDoc (d ctx : Doc) : Doc := d.without (· ∈ sealedFields d ctx)

theorem find?_clearContext (d ctx : Doc) (k : String) :
    (clearContext d ctx).find? k = if k ∈ sealableKeys d ctx then none else ctx.find? k :=
  Doc.find?_without_list ctx _ k

theorem find?_clearDoc (d ctx : Doc) (k : String) :
    (clearDoc d ctx).find? k = if k ∈ sealedFields d ctx then none else d.find? k :=
  Doc.find?_without_list d _ k

structure Seals (float : String → Flt) (R : Crypto) (d d' ctx : Doc) (b : Bool) (f t : Doc) (p : Val)
    (blob : String) : Prop where
  context : contextDict float d = (some ctx, b)
  merged : mergedSeal float R (clearDoc d ctx) (clearContext d ctx) ((sealableKeys d ctx).map fun k => (k, ctx.get k))
    ((sealedFields d ctx).map fun k => (k, d.get k)) = .ok (f, t)
  principal : contentKeyPrincipal (clearDoc d ctx) = .ok p
  sealing : ∃ text, Doc.dumps .plain (sealPayload f t) = .ok text ∧
    ∃ creator, R.sealText p (contentKeyScope (clearDoc d ctx)) creator text = some blob
  put : putContext (clearDoc d ctx) ((clearContext d ctx).set "sealed" (sealValue p blob)) b = .ok d'

/-- **What sealing does.** -/
theorem sealContentFields_cases (h : sealContentFields float R d = .ok d') :
    ((contextDict float d).1 = none ∧ d' = d) ∨
    (∃ ctx b, contextDict float d = (some ctx, b) ∧ sealableKeys d ctx = [] ∧ sealedFields d ctx = [] ∧ d' = d) ∨
    ∃ ctx b f t p blob, Seals float R d d' ctx b f t p blob := by
  unfold sealContentFields at h
  split at h
  · rename_i hc
    cases h
    exact .inl ⟨by rw [hc], rfl⟩
  · rename_i ctx b hc
    dsimp only at h
    split_ifs at h with hnone
    · cases h
      rw [Bool.and_eq_true, List.isEmpty_iff, List.isEmpty_iff] at hnone
      exact .inr (.inl ⟨ctx, b, hc, hnone.1, hnone.2, rfl⟩)
    · obtain ⟨⟨f, t⟩, hm, h₁⟩ := Mantle.bind_ok h
      obtain ⟨p, hp, h₂⟩ := Mantle.bind_ok h₁
      obtain ⟨text, htext, h₃⟩ := Mantle.bind_ok h₂
      split at h₃
      · cases h₃
      · rename_i blob hblob
        exact .inr (.inr ⟨ctx, b, f, t, p, blob, ⟨hc, hm, hp, ⟨text, htext, _, hblob⟩, h₃⟩⟩)

theorem mem_sealableDocFields (h : k ∈ sealableDocFields d ctx) :
    (k = "name" ∨ k = "description") ∧ (d.get k).truthy = true := by
  unfold sealableDocFields at h
  split_ifs at h
  · cases h
  · obtain ⟨hk, ht⟩ := List.mem_filter.mp h
    simp only [List.mem_cons, List.not_mem_nil, or_false] at hk
    exact ⟨hk, ht⟩

theorem sealableDocFields_nodup : (sealableDocFields d ctx).Nodup := by
  unfold sealableDocFields
  split_ifs
  · exact List.nodup_nil
  · exact List.Nodup.filter _ (by decide)

theorem sealableKeys_nodup (h : KeysNodup ctx) : (sealableKeys d ctx).Nodup := by
  unfold sealableKeys
  split_ifs
  · exact List.Nodup.filter _ (by decide)
  · exact List.Nodup.filter _ h

theorem mem_sealableKeys (h : k ∈ sealableKeys d ctx) :
    k ≠ "sealed" ∧ ctx.find? k = some (ctx.get k) := by
  have hsome : k ≠ "sealed" ∧ (ctx.find? k).isSome = true := by
    unfold sealableKeys at h
    split_ifs at h
    · obtain ⟨hk, ht⟩ := List.mem_filter.mp h
      rw [List.mem_singleton] at hk
      subst hk
      exact ⟨by decide, ht⟩
    · obtain ⟨hk, ht⟩ := List.mem_filter.mp h
      rw [Bool.and_eq_true, decide_eq_true_iff, decide_eq_true_iff] at ht
      exact ⟨ht.2, Doc.find?_isSome_iff.mpr hk⟩
  obtain ⟨v, hv⟩ := Option.isSome_iff_exists.mp hsome.2
  refine ⟨hsome.1, ?_⟩
  unfold Doc.get
  rw [hv]
  rfl

theorem sameKeys_without {ks : List String} (h : ∀ k ∈ ks, k = "name" ∨ k = "description") :
    SameKeys d (d.without (· ∈ ks)) := by
  intro k hk
  refine Doc.get_without d ?_
  rw [decide_eq_false_iff_not]
  intro hmem
  rcases h k hmem with rfl | rfl <;> exact absurd hk (by decide)

theorem SameKeys.trans (h : SameKeys d d') (h' : SameKeys d' d'') : SameKeys d d'' :=
  fun k hk => (h' k hk).trans (h k hk)

theorem sameKeys_putContext {b : Bool} (h : putContext d ctx b = .ok d') : SameKeys d d' := by
  intro k hk
  refine putContext_get h ?_
  rintro rfl
  exact absurd hk (by decide)

theorem mergedSeal_cases {fields top : Doc} (h : mergedSeal float R d ctx fields top = .ok (f, t)) :
    ((ctx.get "sealed").truthy = false ∧ f = fields ∧ t = top) ∨
    ∃ parts f₀ t₀, (ctx.get "sealed").truthy = true ∧ openField float R d (ctx.get "sealed") = some parts ∧
      dictOr parts.1 = .ok f₀ ∧ dictOr parts.2 = .ok t₀ ∧ f = f₀.update fields ∧ t = t₀.update top := by
  unfold mergedSeal at h
  split_ifs at h with ht
  · split at h
    · cases h
    · rename_i vf vt ho
      obtain ⟨f₀, hf₀, h₁⟩ := Mantle.bind_ok h
      obtain ⟨t₀, ht₀, h₂⟩ := Mantle.bind_ok h₁
      cases h₂
      exact .inr ⟨(vf, vt), f₀, t₀, ht, ho, hf₀, ht₀, rfl, rfl⟩
  · cases h
    exact .inl ⟨Bool.not_eq_true _ |>.mp ht, rfl, rfl⟩

theorem sealedParts_of_falsy (hA : A.NeedsBlob) (h : (ctx.get "sealed").truthy = false) :
    sealedParts float A d ctx = none := by
  unfold sealedParts
  split_ifs
  · rfl
  · have hor : (ctx.get "sealed").orElse (.dict []) = .dict [] := by
      unfold Val.orElse
      rw [h]
      rfl
    rw [hor]
    have hnone : openField float A d (.dict []) = none := by
      unfold openField openSealed
      dsimp only
      split
      · rfl
      · rename_i p hp
        cases ho : A.openBlob ((d.get "root_id").orElse (d.get "id")) p (contentKeyScope d)
            (Doc.get (docOfItems []) "blob") with
        | error r => rfl
        | ok text =>
          have := hA ho
          cases this
    rw [hnone]
    rfl

/-- What the seal held before, for the reader with the keys, and what it holds now. -/
structure Merges (float : String → Flt) (A : Crypto) (d ctx f t : Doc) (f₀ t₀ : Doc) : Prop where
  prior : sealedParts float A d ctx = some (f₀, t₀) ∨ sealedParts float A d ctx = none ∧ f₀ = [] ∧ t₀ = []
  fields : ∀ k, f.find? k = if k ∈ sealableKeys d ctx then some (ctx.get k) else f₀.find? k
  top : ∀ k, t.find? k = if k ∈ sealedFields d ctx then some (d.get k) else t₀.find? k
  json : JsonDoc float f ∧ JsonDoc float t

theorem Seals.merges (hf : ∀ t, ReadsFloat float (float t)) (hR : R.OpensIn A) (hA : A.NeedsBlob) (hd : JsonDoc float d)
    (h : Seals float R d d' ctx b f t p blob) : ∃ f₀ t₀, Merges float A d ctx f t f₀ t₀ := by
  have hctx := contextDict_json hf hd h.context
  have hkeys : JsonDoc float ((sealableKeys d ctx).map fun k => (k, ctx.get k)) :=
    JsonDoc.keys hctx.get (sealableKeys_nodup hctx.nodup)
  have htops : JsonDoc float ((sealedFields d ctx).map fun k => (k, d.get k)) :=
    JsonDoc.keys hd.get sealableDocFields_nodup
  have hsealed : (clearContext d ctx).find? "sealed" = ctx.find? "sealed" := by
    rw [find?_clearContext, if_neg fun hmem => (mem_sealableKeys hmem).1 rfl]
  have hget : (clearContext d ctx).get "sealed" = ctx.get "sealed" := by
    unfold Doc.get
    rw [hsealed]
  have hsame : SameKeys d (clearDoc d ctx) := sameKeys_without fun k hk => (mem_sealableDocFields hk).1
  rcases mergedSeal_cases h.merged with ⟨hfalse, hfe, hte⟩ | ⟨parts, f₀, t₀, htrue, ho, hf₀, ht₀, hfe, hte⟩
  · rw [hget] at hfalse
    refine ⟨[], [], .inr ⟨sealedParts_of_falsy hA hfalse, rfl, rfl⟩, ?_, ?_, ?_⟩
    · intro k
      rw [hfe]
      exact Doc.find?_keys _ k _
    · intro k
      rw [hte]
      exact Doc.find?_keys _ k _
    · rw [hfe, hte]
      exact ⟨hkeys, htops⟩
  · rw [hget] at htrue ho
    have hoA : openField float A d (ctx.get "sealed") = some parts := by
      rw [← hsame.openField]
      exact openField_opensIn hR ho
    obtain ⟨v, hv⟩ : ∃ v, ctx.find? "sealed" = some v := by
      cases hs : ctx.find? "sealed" with
      | some v => exact ⟨v, rfl⟩
      | none =>
        unfold Doc.get at htrue
        rw [hs] at htrue
        cases htrue
    have hgv : ctx.get "sealed" = v := by
      unfold Doc.get
      rw [hv]
      rfl
    have hparts : sealedParts float A d ctx = some (f₀, t₀) := by
      refine sealedParts_of_open hv ?_ hf₀ ht₀
      unfold Val.orElse
      rw [← hgv, htrue]
      exact hoA
    obtain ⟨hj₁, hj₂⟩ := sealedParts_json hf hparts
    refine ⟨f₀, t₀, .inl hparts, ?_, ?_, ?_⟩
    · intro k
      rw [hfe, Doc.find?_update hkeys.nodup, Doc.find?_keys]
      split_ifs <;> rfl
    · intro k
      rw [hte, Doc.find?_update htops.nodup, Doc.find?_keys]
      split_ifs <;> rfl
    · rw [hfe, hte]
      exact ⟨hj₁.update hkeys, hj₂.update htops⟩

theorem contentKeyPrincipal_ok (h : contentKeyPrincipal d = .ok p) :
    p.truthy = true ∧ ∃ k ∈ keyFields, p = d.get k := by
  unfold contentKeyPrincipal Val.orElse at h
  dsimp only at h
  split_ifs at h with h1 h2 h3
  · cases h
    exact ⟨h1, "origin_root", by decide, rfl⟩
  · cases h
    exact ⟨h2, "content_key_principal", by decide, rfl⟩
  · cases h
    exact ⟨h3, "created_by", by decide, rfl⟩

theorem principal_json (hd : JsonDoc float d) (h : contentKeyPrincipal d = .ok p) : IsJson float p := by
  obtain ⟨-, k, -, rfl⟩ := contentKeyPrincipal_ok h
  exact hd.get k

def bodyFields : List String := ["content", "content_encrypted", "content_key_principal"]

/-- Only the body is written; the key stays, and so does the scope, but for a document that had none. -/
structure BodyWritten (d d' : Doc) : Prop where
  others : ∀ k ∉ bodyFields, d'.find? k = d.find? k
  principal : contentKeyPrincipal d' = contentKeyPrincipal d
  scope : contentKeyScope d' = contentKeyScope d ∨ contentKeyScope d = .str ""

theorem BodyWritten.refl (d : Doc) : BodyWritten d d := ⟨fun _ _ => rfl, rfl, .inl rfl⟩

theorem BodyWritten.get (h : BodyWritten d d') (hk : k ∉ bodyFields) : d'.get k = d.get k := by
  unfold Doc.get
  rw [h.others k hk]

theorem BodyWritten.contextDict (h : BodyWritten d d') : contextDict float d' = contextDict float d := by
  unfold Mantle.contextDict
  rw [h.get (by decide)]

theorem find?_content (d : Doc) (v w : Val) (h1 : k ≠ "content") (h2 : k ≠ "content_encrypted") :
    ((d.set "content" v).set "content_encrypted" w).find? k = d.find? k := by
  rw [Doc.find?_set, if_neg h2, Doc.find?_set, if_neg h1]

theorem sameKeys_content (d : Doc) (v w : Val) : SameKeys d ((d.set "content" v).set "content_encrypted" w) := by
  intro k hk
  unfold Doc.get
  rw [find?_content d v w]
  · rintro rfl
    exact absurd hk (by decide)
  · rintro rfl
    exact absurd hk (by decide)

theorem bodyWritten_content (d : Doc) (v w : Val) :
    BodyWritten d ((d.set "content" v).set "content_encrypted" w) := by
  have hsame := sameKeys_content d v w
  refine ⟨?_, hsame.principal, .inl hsame.scope⟩
  intro k hk
  refine find?_content d v w ?_ ?_
  · rintro rfl
    exact hk (by decide)
  · rintro rfl
    exact hk (by decide)

theorem bodyWritten_principal {d : Doc} (hp : contentKeyPrincipal d = .ok p) :
    BodyWritten d (d.set "content_key_principal" p) := by
  have hget : ∀ k, k ≠ "content_key_principal" → (d.set "content_key_principal" p).get k = d.get k :=
    fun k hk => Doc.get_set_of_ne d p hk
  have hroot := hget "origin_root" (by decide)
  have hckp : (d.set "content_key_principal" p).get "content_key_principal" = p := Doc.get_set_self d _ p
  refine ⟨?_, ?_, ?_⟩
  · intro k hk
    rw [Doc.find?_set, if_neg]
    rintro rfl
    exact hk (by decide)
  · rw [hp]
    unfold contentKeyPrincipal at hp ⊢
    rw [hroot, hckp]
    dsimp only at hp ⊢
    unfold Val.orElse at hp ⊢
    by_cases ho : (d.get "origin_root").truthy = true
    · rw [if_pos ho] at hp ⊢
      rw [if_pos ho] at hp ⊢
      exact hp
    · rw [if_neg ho] at hp ⊢
      have hpt : p.truthy = true := by
        split_ifs at hp with h1 h2
        · cases hp
          exact h1
        · cases hp
          exact h2
      rw [if_pos hpt]
  · unfold contentKeyScope
    rw [hroot, hckp, hget "collection_id" (by decide), hget "id" (by decide)]
    unfold contentKeyPrincipal at hp
    dsimp only at hp ⊢
    unfold Val.orElse at hp ⊢
    by_cases hc : (d.get "collection_id").truthy = true
    · rw [if_pos hc, if_pos hc]
      exact .inl rfl
    · rw [if_neg hc, if_neg hc]
      by_cases ho : (d.get "origin_root").truthy = true
      · rw [if_pos ho, if_pos ho]
        exact .inl rfl
      · rw [if_neg ho] at hp
        rw [if_neg ho, if_neg ho]
        by_cases hk : (d.get "content_key_principal").truthy = true
        · rw [if_pos hk] at hp
          cases hp
          exact .inl rfl
        · right
          simp only [Bool.not_eq_true] at hk
          rw [hk]
          rfl

theorem BodyWritten.trans (h : BodyWritten d d') (h' : BodyWritten d' d'')
    (hs : contentKeyScope d' = contentKeyScope d) : BodyWritten d d'' where
  others := fun k hk => (h'.others k hk).trans (h.others k hk)
  principal := h'.principal.trans h.principal
  scope := by
    rw [← hs]
    exact h'.scope

theorem encryptBody_cases (h : encryptBody R d = .ok d') :
    ((d.get "content_ref").truthy = true ∧
      d' = (d.set "content" (.str "")).set "content_encrypted" (.bool false)) ∨
    ((d.get "content_ref").truthy = false ∧
      ((d.get "content").truthy = false ∨ (d.get "content_encrypted").truthy = true) ∧ d' = d) ∨
    ((d.get "content_ref").truthy = false ∧ (d.get "content").truthy = true ∧
      ∃ p blob, contentKeyPrincipal d = .ok p ∧
        R.sealText p (contentKeyScope d) (d.get "created_by") (d.get "content").pyStr = some blob ∧
        d' = ((d.set "content" (.str blob)).set "content_encrypted" (.bool true)).set "content_key_principal" p) := by
  unfold encryptBody at h
  split_ifs at h with h1 h2
  · cases h
    exact .inl ⟨h1, rfl⟩
  · cases h
    rw [Bool.or_eq_true, Bool.not_eq_true'] at h2
    exact .inr (.inl ⟨Bool.not_eq_true _ |>.mp h1, h2, rfl⟩)
  · rw [Bool.or_eq_true, Bool.not_eq_true', not_or, Bool.not_eq_false] at h2
    obtain ⟨p, hp, h'⟩ := Mantle.bind_ok h
    split at h'
    · cases h'
    · rename_i blob hblob
      cases h'
      exact .inr (.inr ⟨Bool.not_eq_true _ |>.mp h1, h2.1, p, blob, hp, hblob, rfl⟩)

theorem encryptBody_written (h : encryptBody R d = .ok d') : BodyWritten d d' := by
  rcases encryptBody_cases h with ⟨-, hd'⟩ | ⟨-, -, hd'⟩ | ⟨-, -, p, blob, hp, -, hd'⟩
  · rw [hd']
    exact bodyWritten_content d _ _
  · rw [hd']
    exact BodyWritten.refl d
  · rw [hd']
    have hc := bodyWritten_content d (.str blob) (.bool true)
    exact hc.trans (bodyWritten_principal (hc.principal.trans hp)) (sameKeys_content d _ _).scope

theorem encryptBody_json (hd : JsonDoc float d) (h : encryptBody R d = .ok d') : JsonDoc float d' := by
  rcases encryptBody_cases h with ⟨-, hd'⟩ | ⟨-, -, hd'⟩ | ⟨-, -, p, blob, hp, -, hd'⟩
  · rw [hd']
    exact (hd.set _ (isJson_str _)).set _ (isJson_bool _)
  · rw [hd']
    exact hd
  · rw [hd']
    refine ((hd.set _ (isJson_str _)).set _ (isJson_bool _)).set _ ?_
    exact principal_json hd hp

theorem Seals.opens (hR : R.SealsFor A) (hA : A.DualRead) (h : Seals float R d d' ctx b f t p blob)
    (hj : JsonDoc float f ∧ JsonDoc float t) {ctx'' : Doc} (hw : BodyWritten d' d'')
    (hs : ctx''.find? "sealed" = some (sealValue p blob)) :
    sealedParts float A d'' ctx'' = some (f, t) := by
  obtain ⟨text, htext, creator, hblob⟩ := h.sealing
  have hp : p.truthy = true := (contentKeyPrincipal_ok h.principal).1
  have hscope : contentKeyScope d'' = contentKeyScope (clearDoc d ctx) ∨
      contentKeyScope (clearDoc d ctx) = .str "" := by
    rw [← (sameKeys_putContext h.put).scope]
    exact hw.scope
  have hor : (sealValue p blob).orElse (.dict []) = sealValue p blob := rfl
  suffices ho : openField float A d'' (sealValue p blob) = some (.dict f.toItems, .dict t.toItems) from
    sealedParts_of_open hs (by rw [hor]; exact ho) (dictOr_toItems f) (dictOr_toItems t)
  unfold openField sealValue openSealed
  dsimp only
  have hgp : Doc.get (docOfItems [(.str "p", p), (.str "blob", .str blob)]) "p" = p := rfl
  have hgb : Doc.get (docOfItems [(.str "p", p), (.str "blob", .str blob)]) "blob" = .str blob := rfl
  rw [hgp, hgb, if_pos hp]
  dsimp only
  have hopen : A.openBlob ((d''.get "root_id").orElse (d''.get "id")) p (contentKeyScope d'') (.str blob) = .ok text := by
    have h0 := hR hblob ((d''.get "root_id").orElse (d''.get "id"))
    rcases hscope with he | he
    · rw [he]
      exact h0
    · rw [he] at h0
      exact hA h0 _
  rw [hopen]
  exact openedPayload_sealPayload hj.1 hj.2 htext

theorem Seals.context_after (hf : ∀ t, ReadsFloat float (float t)) (hd : JsonDoc float d)
    (h : Seals float R d d' ctx b f t p blob) :
    contextDict float d' = (some ((clearContext d ctx).set "sealed" (sealValue p blob)), b) ∧ JsonDoc float d' := by
  have hctx := contextDict_json hf hd h.context
  have hclear : JsonDoc float (clearDoc d ctx) := hd.without _
  have hseal : IsJson float (sealValue p blob) := by
    have hj : JsonDoc float [("p", p), ("blob", .str blob)] := by
      refine ⟨?_, ?_⟩
      · have hkeys : ([("p", p), ("blob", .str blob)] : Doc).map Prod.fst = ["p", "blob"] := rfl
        unfold KeysNodup
        rw [hkeys]
        decide
      · intro e he
        simp only [List.mem_cons, List.not_mem_nil, or_false] at he
        rcases he with rfl | rfl
        · exact principal_json hclear h.principal
        · exact isJson_str blob
    exact hj.toItems
  have hset : JsonDoc float ((clearContext d ctx).set "sealed" (sealValue p blob)) :=
    (hctx.without _).set _ hseal
  exact ⟨contextDict_putContext hset h.put, putContext_json hclear hset h.put⟩

end Sealing

/-! ### Unsealing -/

section Unsealing

variable {float : String → Flt} {A : Crypto} {d d' ctx : Doc}

/-- **What unsealing does.** -/
theorem unsealContentFields_cases (h : unsealContentFields float A d = .ok d') :
    d' = d ∧ (∀ ctx b, contextDict float d = (some ctx, b) → sealedParts float A d ctx = none) ∨
    ∃ ctx b f t, contextDict float d = (some ctx, b) ∧ sealedParts float A d ctx = some (f, t) ∧
      putContext (restoreFields d t) (setDefaults (ctx.without (· = "sealed")) f) b = .ok d' := by
  unfold unsealContentFields at h
  split at h
  · rename_i ctx b hc
    split_ifs at h with hnone
    · cases h
      refine .inl ⟨rfl, ?_⟩
      intro ctx' b' hc'
      rw [hc] at hc'
      cases hc'
      unfold sealedParts
      rw [if_pos hnone]
    · split at h
      · rename_i ho
        cases h
        refine .inl ⟨rfl, ?_⟩
        intro ctx' b' hc'
        rw [hc] at hc'
        cases hc'
        unfold sealedParts
        rw [if_neg hnone, ho]
        rfl
      · rename_i vf vt ho
        obtain ⟨f, hf, h₁⟩ := Mantle.bind_ok h
        obtain ⟨t, ht, h₂⟩ := Mantle.bind_ok h₁
        refine .inr ⟨ctx, b, f, t, hc, ?_, h₂⟩
        unfold sealedParts
        rw [if_neg hnone, ho]
        simp only [Option.bind_some]
        rw [hf, ht]
  · rename_i b hc
    cases h
    refine .inl ⟨rfl, ?_⟩
    intro ctx' b' hc'
    rw [hc] at hc'
    cases hc'

theorem unseal_of_parts (hc : contextDict float d = (some ctx, b)) (h : sealedParts float A d ctx = some (f, t)) :
    unsealContentFields float A d =
      putContext (restoreFields d t) (setDefaults (ctx.without (· = "sealed")) f) b := by
  unfold sealedParts at h
  unfold unsealContentFields
  split_ifs at h with hnone
  obtain ⟨parts, ho, hparts⟩ := Option.bind_eq_some_iff.mp h
  rw [hc]
  dsimp only
  rw [if_neg hnone, ho]
  dsimp only
  split at hparts
  · rename_i f' t' h1 h2
    cases hparts
    rw [h1, h2]
    rfl
  · cases hparts

theorem unseal_of_none (hc : contextDict float d = (some ctx, b)) (h : ctx.find? "sealed" = none) :
    unsealContentFields float A d = .ok d := by
  unfold unsealContentFields
  rw [hc]
  dsimp only
  rw [h]
  rfl

theorem sealedParts_of_none (h : ctx.find? "sealed" = none) : sealedParts float A d ctx = none := by
  unfold sealedParts
  rw [h]
  rfl

theorem unseal_seen (hf : ∀ t, ReadsFloat float (float t)) (hd : JsonDoc float d)
    (h : unsealContentFields float A d = .ok d') :
    (∀ ctx b, contextDict float d = (some ctx, b) → ∃ ctx', contextDict float d' = (some ctx', b) ∧
      ∀ k ≠ "sealed", ctx'.find? k = seenContext float A d k) ∧
    ∀ k ≠ "context", d'.get k = seenField float A d k := by
  rcases unsealContentFields_cases h with ⟨rfl, hnone⟩ | ⟨ctx, b, f, t, hc, hparts, hput⟩
  · refine ⟨?_, ?_⟩
    · intro ctx b hc
      refine ⟨ctx, hc, ?_⟩
      intro k _
      unfold seenContext
      rw [hc]
      dsimp only
      rw [hnone ctx b hc]
      simp
    · intro k _
      unfold seenField
      split_ifs
      · rfl
      · cases hc : contextDict float d' with
        | mk o b =>
          cases o with
          | none => rfl
          | some ctx =>
            simp only [Option.bind_some]
            rw [hnone ctx b hc]
            rfl
  · obtain ⟨hjf, hjt⟩ := sealedParts_json hf hparts
    have hctx := contextDict_json hf hd hc
    have hset : JsonDoc float (setDefaults (ctx.without (· = "sealed")) f) := (hctx.without _).setDefaults hjf
    refine ⟨?_, ?_⟩
    · intro ctx' b' hc'
      rw [hc] at hc'
      cases hc'
      refine ⟨_, contextDict_putContext hset hput, ?_⟩
      intro k hk
      unfold seenContext
      rw [find?_setDefaults, Doc.find?_without ctx (decide_eq_false hk), hc]
      dsimp only
      rw [hparts]
      rfl
    · intro k hk
      rw [putContext_get hput hk, get_restoreFields k hjt.nodup]
      unfold seenField
      rw [hc]
      simp only [Option.bind_some]
      rw [hparts]
      rfl

end Unsealing

end Mantle
