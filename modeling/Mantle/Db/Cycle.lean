import Mantle.Db.Restore

/-!
# Mantle.Db.Cycle — reading and saving what was read

What a reader with all the keys recovers stays the same, as long as no lenient read drops an inline body that it cannot
open.
-/

namespace Mantle

open Json

section Cycle

variable {float : String → Flt} {A R : Crypto} {d d' ctx : Doc}

/-- A document with its seal, if any, made here: it opens, and holds the name and the description of the document. -/
def OwnSeal (float : String → Flt) (A : Crypto) (d : Doc) : Prop :=
  ∀ ctx b, contextDict float d = (some ctx, b) → (ctx.find? "sealed").isSome = true →
    ∃ f t, sealedParts float A d ctx = some (f, t) ∧ f.find? "sealed" = none ∧
      ∀ k, (t.find? k).isSome = true → k = "name" ∨ k = "description"

/-- The reader sees the same in both. -/
structure SeenAlike (float : String → Flt) (A : Crypto) (d d' : Doc) : Prop where
  context : ∀ k ≠ "sealed", seenContext float A d' k = seenContext float A d k
  field : ∀ k, k = "name" ∨ k = "description" → seenField float A d' k = seenField float A d k

theorem SeenAlike.refl (d : Doc) : SeenAlike float A d d := ⟨fun _ _ => rfl, fun _ _ => rfl⟩

theorem SeenAlike.trans {d'' : Doc} (h : SeenAlike float A d d') (h' : SeenAlike float A d' d'') :
    SeenAlike float A d d'' where
  context := fun k hk => (h'.context k hk).trans (h.context k hk)
  field := fun k hk => (h'.field k hk).trans (h.field k hk)

def sealFields : List String := ["context", "name", "description"]

/-- Other fields are untouched. -/
def SameOutside (ks : List String) (d d' : Doc) : Prop := ∀ k ∉ ks, d'.find? k = d.find? k

theorem SameOutside.get {ks : List String} (h : SameOutside ks d d') {k : String} (hk : k ∉ ks) : d'.get k = d.get k := by
  unfold Doc.get
  rw [h k hk]

theorem SameOutside.keys (h : SameOutside sealFields d d') : SameKeys d d' := by
  intro k hk
  refine h.get ?_
  intro hmem
  simp only [sealFields, List.mem_cons, List.not_mem_nil, or_false] at hmem
  rcases hmem with rfl | rfl | rfl <;> exact absurd hk (by decide)

theorem sealedParts_opensIn (h : R.OpensIn A) {f t : Doc} (hp : sealedParts float R d ctx = some (f, t)) :
    sealedParts float A d ctx = some (f, t) := by
  unfold sealedParts at hp ⊢
  split_ifs at hp ⊢
  obtain ⟨parts, ho, hparts⟩ := Option.bind_eq_some_iff.mp hp
  rw [openField_opensIn h ho]
  exact hparts

theorem seenContext_of {b : Bool} (hc : contextDict float d = (some ctx, b)) (k : String) :
    seenContext float A d k = (ctx.find? k).or ((sealedParts float A d ctx).bind fun parts => parts.1.find? k) := by
  unfold seenContext
  rw [hc]

theorem seenField_of {b : Bool} (hc : contextDict float d = (some ctx, b)) (k : String) :
    seenField float A d k = if (d.get k).truthy then d.get k
      else ((sealedParts float A d ctx).bind fun parts => parts.2.find? k).getD (d.get k) := by
  unfold seenField
  rw [hc]
  rfl

/-! ### Unsealing -/

structure StepKept (float : String → Flt) (A : Crypto) (d d' : Doc) : Prop where
  json : JsonDoc float d'
  own : OwnSeal float A d'
  seen : SeenAlike float A d d'

theorem unseal_kept (hf : ∀ t, ReadsFloat float (float t)) (hR : R.OpensIn A) (hd : JsonDoc float d)
    (hown : OwnSeal float A d) (h : unsealContentFields float R d = .ok d') :
    StepKept float A d d' ∧ SameOutside sealFields d d' := by
  rcases unsealContentFields_cases h with ⟨rfl, -⟩ | ⟨ctx, b, f, t, hc, hparts, hput⟩
  · exact ⟨⟨hd, hown, SeenAlike.refl _⟩, fun _ _ => rfl⟩
  · have hA := sealedParts_opensIn hR hparts
    have hsome : (ctx.find? "sealed").isSome = true := by
      cases hs : ctx.find? "sealed" with
      | some v => rfl
      | none =>
        rw [sealedParts_of_none hs] at hparts
        cases hparts
    obtain ⟨f', t', hA', hfs, htk⟩ := hown ctx b hc hsome
    rw [hA] at hA'
    cases hA'
    obtain ⟨hjf, hjt⟩ := sealedParts_json hf hA
    have hset : JsonDoc float (setDefaults (ctx.without (· = "sealed")) f) :=
      ((contextDict_json hf hd hc).without _).setDefaults hjf
    have hc' := contextDict_putContext hset hput
    have hnone : (setDefaults (ctx.without (· = "sealed")) f).find? "sealed" = none := by
      rw [find?_setDefaults, Doc.find?_without_of ctx (decide_eq_true rfl), hfs]
      rfl
    have hparts' := @sealedParts_of_none float A d' _ hnone
    refine ⟨⟨putContext_json (hd.restoreFields hjt) hset hput, ?_, ?_, ?_⟩, ?_⟩
    · intro ctx' b' hc'' hs
      rw [hc'] at hc''
      cases hc''
      rw [hnone] at hs
      cases hs
    · intro k hk
      rw [seenContext_of hc', seenContext_of hc, hparts', hA, find?_setDefaults,
        Doc.find?_without ctx (decide_eq_false hk)]
      simp
    · intro k hk
      have hne : k ≠ "context" := by rcases hk with rfl | rfl <;> decide
      rw [seenField_of hc', seenField_of hc, hparts', hA, putContext_get hput hne,
        get_restoreFields k hjt.nodup]
      simp
    · intro k hk
      have hne : k ≠ "context" := by
        rintro rfl
        exact hk (by decide)
      rw [putContext_find? hput hne]
      refine find?_restoreFields k t d fun hmem => hk ?_
      rcases htk k (Doc.find?_isSome_iff.mpr hmem) with rfl | rfl <;> decide

/-! ### Bodies -/

theorem BodyWritten.root (h : BodyWritten d d') :
    d'.get "root_id" = d.get "root_id" ∧ d'.get "id" = d.get "id" :=
  ⟨h.get (by decide), h.get (by decide)⟩

theorem sealedParts_written (hA : A.DualRead) (hw : BodyWritten d d') {f t : Doc}
    (hp : sealedParts float A d ctx = some (f, t)) : sealedParts float A d' ctx = some (f, t) := by
  unfold sealedParts at hp ⊢
  split_ifs at hp ⊢
  obtain ⟨parts, ho, hparts⟩ := Option.bind_eq_some_iff.mp hp
  have ho' : openField float A d' ((ctx.get "sealed").orElse (.dict [])) = some parts := by
    unfold openField at ho ⊢
    cases hv : (ctx.get "sealed").orElse (.dict []) with
    | dict items =>
      rw [hv] at ho
      unfold openSealed at ho ⊢
      rw [hw.principal, hw.root.1, hw.root.2]
      dsimp only at ho ⊢
      split at ho
      · cases ho
      · rename_i p hp'
        rcases hw.scope with hs | hs
        · rw [hs]
          exact ho
        · rw [hs] at ho
          obtain ⟨text, htext, hpayload⟩ := Option.bind_eq_some_iff.mp ho
          cases hopen : A.openBlob ((d.get "root_id").orElse (d.get "id")) p (.str "")
              ((docOfItems items).get "blob") with
          | error r =>
            rw [hopen] at htext
            cases htext
          | ok text' =>
            rw [hopen] at htext
            cases htext
            rw [hA hopen]
            exact hpayload
    | _ =>
      rw [hv] at ho
      cases ho
  rw [ho']
  exact hparts

theorem body_kept (hA : A.DualRead) (hown : OwnSeal float A d) (hw : BodyWritten d d') (hj : JsonDoc float d') :
    StepKept float A d d' := by
  have hparts : ∀ ctx b, contextDict float d = (some ctx, b) →
      sealedParts float A d' ctx = sealedParts float A d ctx := by
    intro ctx b hc
    cases hs : ctx.find? "sealed" with
    | none => rw [sealedParts_of_none hs, sealedParts_of_none hs]
    | some v =>
      obtain ⟨f, t, hp, -⟩ := hown ctx b hc (by rw [hs]; rfl)
      rw [hp]
      exact sealedParts_written hA hw hp
  refine ⟨hj, ?_, ?_, ?_⟩
  · intro ctx b hc hs
    rw [hw.contextDict] at hc
    rw [hparts ctx b hc]
    exact hown ctx b hc hs
  · intro k _
    unfold seenContext
    rw [hw.contextDict]
    cases hc : contextDict float d with
    | mk o b =>
      cases o with
      | none => rfl
      | some ctx =>
        dsimp only
        rw [hparts ctx b hc]
  · intro k hk
    have hget : d'.get k = d.get k := hw.get (by rcases hk with rfl | rfl <;> decide)
    unfold seenField
    rw [hw.contextDict, hget]
    cases hc : contextDict float d with
    | mk o b =>
      cases o with
      | none => rfl
      | some ctx =>
        simp only [Option.bind_some]
        rw [hparts ctx b hc]

theorem bodyWritten_one (d : Doc) (v : Val) : BodyWritten d (d.set "content" v) := by
  have hget : ∀ k, k ≠ "content" → (d.set "content" v).find? k = d.find? k := by
    intro k hk
    rw [Doc.find?_set, if_neg hk]
  have hsame : SameKeys d (d.set "content" v) := by
    intro k hk
    unfold Doc.get
    rw [hget]
    rintro rfl
    exact absurd hk (by decide)
  refine ⟨?_, hsame.principal, .inl hsame.scope⟩
  intro k hk
  refine hget k ?_
  rintro rfl
  exact hk (by decide)

/-! ### Sealing -/

theorem seal_kept (hf : ∀ t, ReadsFloat float (float t)) (hR : R.OpensIn A) (hseals : R.SealsFor A)
    (hdual : A.DualRead) (hblob : A.NeedsBlob) (hd : JsonDoc float d) (hown : OwnSeal float A d)
    (h : sealContentFields float R d = .ok d') : StepKept float A d d' ∧ SameOutside sealFields d d' := by
  rcases sealContentFields_cases h with ⟨-, rfl⟩ | ⟨ctx, b, hc, -, -, rfl⟩ | ⟨ctx, b, f, t, p, blob, hs⟩
  · exact ⟨⟨hd, hown, SeenAlike.refl _⟩, fun _ _ => rfl⟩
  · exact ⟨⟨hd, hown, SeenAlike.refl _⟩, fun _ _ => rfl⟩
  · obtain ⟨f₀, t₀, hm⟩ := hs.merges hf hR hblob hd
    have hafter := hs.context_after hf hd
    have hset : ((clearContext d ctx).set "sealed" (sealValue p blob)).find? "sealed" = some (sealValue p blob) := by
      rw [Doc.find?_set, if_pos rfl]
    have hparts := hs.opens hseals hdual hm.json (BodyWritten.refl d') hset
    -- what the seal held before
    have hprior : ∀ k, ((sealedParts float A d ctx).bind fun parts => parts.1.find? k) = f₀.find? k ∧
        ((sealedParts float A d ctx).bind fun parts => parts.2.find? k) = t₀.find? k := by
      intro k
      rcases hm.prior with hp | ⟨hp, h1, h2⟩
      · rw [hp]
        exact ⟨rfl, rfl⟩
      · rw [hp, h1, h2]
        exact ⟨rfl, rfl⟩
    have hownPrior : f₀.find? "sealed" = none ∧ ∀ k, (t₀.find? k).isSome = true → k = "name" ∨ k = "description" := by
      rcases hm.prior with hp | ⟨-, h1, h2⟩
      · have hsome : (ctx.find? "sealed").isSome = true := by
          cases hs' : ctx.find? "sealed" with
          | some v => rfl
          | none =>
            rw [sealedParts_of_none hs'] at hp
            cases hp
        obtain ⟨f', t', hp', hfs, htk⟩ := hown ctx b hs.context hsome
        rw [hp] at hp'
        cases hp'
        exact ⟨hfs, htk⟩
      · rw [h1, h2]
        exact ⟨rfl, fun k hk => (nomatch hk)⟩
    refine ⟨⟨hafter.2, ?_, ?_, ?_⟩, ?_⟩
    · intro ctx' b' hc' _
      rw [hafter.1] at hc'
      cases hc'
      refine ⟨f, t, hparts, ?_, ?_⟩
      · rw [hm.fields, if_neg fun hmem => (mem_sealableKeys hmem).1 rfl]
        exact hownPrior.1
      · intro k hk
        rw [hm.top] at hk
        split_ifs at hk with hmem
        · exact (mem_sealableDocFields hmem).1
        · exact hownPrior.2 k hk
    · intro k hk
      rw [seenContext_of hafter.1, seenContext_of hs.context, hparts, (hprior k).1, Doc.find?_set, if_neg hk,
        find?_clearContext]
      simp only [Option.bind_some]
      rw [hm.fields]
      split_ifs with hmem
      · rw [(mem_sealableKeys hmem).2]
        rfl
      · rfl
    · intro k hk
      have hne : k ≠ "context" := by rcases hk with rfl | rfl <;> decide
      have hget : d'.get k = (clearDoc d ctx).get k := putContext_get hs.put hne
      rw [seenField_of hafter.1, seenField_of hs.context, hparts, (hprior k).2, hget]
      simp only [Option.bind_some]
      rw [hm.top]
      by_cases hmem : k ∈ sealedFields d ctx
      · have hnone : (clearDoc d ctx).get k = .none := by
          unfold Doc.get
          rw [find?_clearDoc, if_pos hmem]
          rfl
        rw [if_pos hmem, hnone, if_pos (mem_sealableDocFields hmem).2]
        rfl
      · have hsame : (clearDoc d ctx).get k = d.get k := by
          unfold Doc.get
          rw [find?_clearDoc, if_neg hmem]
        rw [if_neg hmem, hsame]
    · intro k hk
      have hne : k ≠ "context" := by
        rintro rfl
        exact hk (by decide)
      rw [putContext_find? hs.put hne, find?_clearDoc, if_neg]
      intro hmem
      rcases (mem_sealableDocFields hmem).1 with rfl | rfl <;> exact hk (by decide)

/-! ### What is recovered -/

structure Recovered where
  context : String → Option Val
  name : Val
  description : Val
  body : Val

/-- What a strict read gives a reader. -/
def recovered (float : String → Flt) (A : Crypto) (d : Doc) : Option Recovered :=
  (decryptArtifactContent float A true d).toOption.map fun r =>
    ⟨fun k => ((contextDict float r).1.getD []).find? k, r.get "name", r.get "description", r.get "content"⟩

/-- The principals, the address and the scope under which a body elsewhere is fetched. -/
def fetched (A : Crypto) (contentKey : Val) (d : Doc) : Option String :=
  (bodyPrincipals d).findSome? fun p =>
    A.hydrate (contentKey.orElse (.str "")) p (d.get "content_ref") (contentKeyScope d)

def seenBody (float : String → Flt) (A : Crypto) (d : Doc) : Option Val :=
  if addressed d then
    if (bodyPrincipals d).isEmpty then some (d.get "content")
    else (fetched A ((seenContext float A d "content_key").getD .none) d).map .str
  else if (d.get "content_encrypted").truthy then (openBody A d).toOption.map .str
  else some (d.get "content")

/-- A document as the boundary leaves it: JSON, with a seal of its own; an addressed body is not in it, and an
inline one is a text. -/
structure StoredDoc (float : String → Flt) (A : Crypto) (d : Doc) : Prop where
  json : JsonDoc float d
  own : OwnSeal float A d
  outside : (d.get "content_ref").truthy = true → d.get "content" = .str ""
  text : (d.get "content").truthy = true → ∃ s, d.get "content" = .str s

theorem SameKeys.bodyPrincipals (h : SameKeys d d') : bodyPrincipals d' = bodyPrincipals d := by
  unfold Mantle.bodyPrincipals
  rw [h "content_key_principal" (by decide), h.scope, h "created_by" (by decide)]

theorem SameKeys.openBody (h : SameKeys d d') (hc : d'.get "content" = d.get "content") :
    openBody A d' = openBody A d := by
  unfold Mantle.openBody
  rw [h "root_id" (by decide), h "id" (by decide), h "content_key_principal" (by decide), h "created_by" (by decide),
    h.scope, hc]

theorem decryptBody_seen (d : Doc) : (decryptBody float A true d).toOption.map (fun r => r.get "content") =
    if addressed d then
      if (bodyPrincipals d).isEmpty then some (d.get "content")
      else (fetched A (contentKeyOf float d) d).map .str
    else if (d.get "content_encrypted").truthy then (openBody A d).toOption.map .str
    else some (d.get "content") := by
  unfold decryptBody
  by_cases ha : addressed d = true
  · rw [if_pos ha]
    unfold addressed at ha
    rw [if_pos ha]
    dsimp only
    by_cases hp : (bodyPrincipals d).isEmpty = true
    · rw [if_pos hp, if_pos hp]
      rfl
    · rw [if_neg hp, if_neg hp]
      unfold fetched
      cases (bodyPrincipals d).findSome? fun p =>
          A.hydrate ((contentKeyOf float d).orElse (.str "")) p (d.get "content_ref") (contentKeyScope d) with
      | none => rfl
      | some text =>
        change some ((d.set "content" (.str text)).get "content") = _
        rw [Doc.get_set_self]
        rfl
  · rw [if_neg ha]
    unfold addressed at ha
    rw [if_neg ha]
    by_cases he : (d.get "content_encrypted").truthy = true
    · rw [if_pos he, if_pos he]
      unfold openBody
      cases A.openBlob ((d.get "root_id").orElse (d.get "id"))
          ((d.get "content_key_principal").orElse (d.get "created_by")) (contentKeyScope d) (d.get "content") with
      | ok text =>
        change some (((d.set "content" (.str text)).set "content_encrypted" (.bool false)).get "content") = _
        rw [Doc.get_set_of_ne _ _ (by decide), Doc.get_set_self]
        rfl
      | error r => cases r <;> rfl
    · rw [if_neg he, if_neg he]
      rfl

theorem contentKeyOf_contextDict (d : Doc) :
    contentKeyOf float d = (((contextDict float d).1.getD []).find? "content_key").getD .none := by
  unfold contentKeyOf contextDict
  cases d.get "context" with
  | dict items => rfl
  | str s =>
    dsimp only
    by_cases hs : s = ""
    · subst hs
      rw [if_pos rfl, loads_empty]
      rfl
    · rw [if_neg hs]
      cases Json.loads float s with
      | none => rfl
      | some v => cases v <;> rfl
  | _ =>
    dsimp only
    split_ifs <;> rfl

theorem unseal_stored (hf : ∀ t, ReadsFloat float (float t)) (h : StoredDoc float A d) :
    ∃ u, unsealContentFields float A d = .ok u := by
  cases hc : contextDict float d with
  | mk o b =>
    cases o with
    | none =>
      refine ⟨d, ?_⟩
      unfold unsealContentFields
      rw [hc]
    | some ctx =>
      cases hs : ctx.find? "sealed" with
      | none => exact ⟨d, unseal_of_none hc hs⟩
      | some v =>
        obtain ⟨f, t, hp, -⟩ := h.own ctx b hc (by rw [hs]; rfl)
        rw [unseal_of_parts hc hp]
        exact putContext_writes (((contextDict_json hf h.json hc).without _).setDefaults (sealedParts_json hf hp).1) _ _

theorem unsealed_context (hf : ∀ t, ReadsFloat float (float t)) (h : StoredDoc float A d) {u : Doc}
    (hu : unsealContentFields float A d = .ok u) (k : String) :
    ((contextDict float u).1.getD []).find? k = if k = "sealed" then none else seenContext float A d k := by
  have hseen := (unseal_seen hf h.json hu).1
  cases hc : contextDict float d with
  | mk o b =>
    cases o with
    | none =>
      have heq : u = d := by
        unfold unsealContentFields at hu
        rw [hc] at hu
        cases hu
        rfl
      rw [heq, hc]
      unfold seenContext
      rw [hc]
      split_ifs <;> rfl
    | some ctx =>
      obtain ⟨ctx', hc', hk'⟩ := hseen ctx b hc
      rw [hc']
      simp only [Option.getD_some]
      split_ifs with hk
      · subst hk
        cases hs : ctx.find? "sealed" with
        | none =>
          rw [unseal_of_none hc hs] at hu
          cases hu
          rw [hc] at hc'
          cases hc'
          exact hs
        | some v =>
          obtain ⟨f, t, hp, hfs, -⟩ := h.own ctx b hc (by rw [hs]; rfl)
          rw [unseal_of_parts hc hp] at hu
          have hset : JsonDoc float (setDefaults (ctx.without (· = "sealed")) f) :=
            ((contextDict_json hf h.json hc).without _).setDefaults (sealedParts_json hf hp).1
          rw [contextDict_putContext hset hu] at hc'
          cases hc'
          rw [find?_setDefaults, Doc.find?_without_of ctx (decide_eq_true rfl), hfs]
          rfl
      · exact hk' k hk

/-- **What is recovered from a stored document.** -/
theorem recovered_eq (hf : ∀ t, ReadsFloat float (float t)) (h : StoredDoc float A d) :
    recovered float A d = (seenBody float A d).map fun body =>
      ⟨fun k => if k = "sealed" then none else seenContext float A d k, seenField float A d "name",
        seenField float A d "description", body⟩ := by
  obtain ⟨u, hu⟩ := unseal_stored hf h
  have hbut : SameOutside sealFields d u := (unseal_kept hf (fun ho => ho) h.json h.own hu).2
  have hfields := (unseal_seen hf h.json hu).2
  have hctx := unsealed_context hf h hu
  have hkey : contentKeyOf float u = (seenContext float A d "content_key").getD .none := by
    rw [contentKeyOf_contextDict, hctx, if_neg (by decide)]
  have haddr : addressed u = addressed d := by
    unfold addressed
    rw [hbut.get (by decide), hbut.get (by decide)]
  have hbody : seenBody float A d = (decryptBody float A true u).toOption.map fun r => r.get "content" := by
    rw [decryptBody_seen]
    unfold seenBody fetched
    rw [haddr, hkey, hbut.keys.bodyPrincipals, hbut.keys.openBody (hbut.get (by decide)), hbut.keys.scope,
      hbut.get (k := "content") (by decide), hbut.get (k := "content_encrypted") (by decide),
      hbut.get (k := "content_ref") (by decide)]
  have hread : (decryptArtifactContent float A true d).toOption = (decryptBody float A true u).toOption := by
    unfold decryptArtifactContent
    rw [hu]
    rfl
  unfold recovered
  rw [hbody, hread]
  cases hr : decryptBody float A true u with
  | error e => rfl
  | ok r =>
    have hw := decryptBody_written hr
    have hget : ∀ k ∉ bodyFields, r.get k = u.get k := by
      intro k hk
      unfold Doc.get
      rw [hw k hk]
    have hc : contextDict float r = contextDict float u := contextDict_of_find? (hw "context" (by decide))
    simp only [Except.toOption, Option.map_some, hc, hctx]
    rw [hget "name" (by decide), hget "description" (by decide), hfields "name" (by decide),
      hfields "description" (by decide)]

/-! ### One read and save -/

structure ReadSave where
  reader : Crypto
  writer : Crypto
  strict : Bool

def ReadSave.run (float : String → Flt) (c : ReadSave) (d : Doc) : Doc :=
  match (decryptArtifactContent float c.reader c.strict d).bind (encryptArtifactContent float c.writer) with
  | .ok d' => d'
  | .error _ => d

structure ReadSave.Under (A : Crypto) (c : ReadSave) : Prop where
  reads : c.reader.OpensIn A
  writes : c.writer.OpensIn A
  sealsFor : c.writer.SealsFor A

def ReadSave.Keeps (c : ReadSave) (d : Doc) : Prop :=
  c.strict = true ∨ addressed d = true ∨ (d.get "content_encrypted").truthy = false ∨
    openBody c.reader d ≠ .error .failed

theorem openBody_sealed (hseals : R.SealsFor A) (hdual : A.DualRead) {p : Val} {blob text : String} {creator : Val}
    (hp : contentKeyPrincipal d = .ok p) (hblob : R.sealText p (contentKeyScope d) creator text = some blob) :
    openBody A (((d.set "content" (.str blob)).set "content_encrypted" (.bool true)).set "content_key_principal" p) =
      .ok text := by
  have hc := bodyWritten_content d (.str blob) (.bool true)
  have hw := hc.trans (bodyWritten_principal (hc.principal.trans hp)) (sameKeys_content d _ _).scope
  have hpt := (contentKeyPrincipal_ok hp).1
  have hckp : (((d.set "content" (.str blob)).set "content_encrypted" (.bool true)).set "content_key_principal" p).get
      "content_key_principal" = p := Doc.get_set_self _ _ _
  have hcontent : (((d.set "content" (.str blob)).set "content_encrypted" (.bool true)).set "content_key_principal"
      p).get "content" = .str blob := by
    rw [Doc.get_set_of_ne _ _ (by decide), Doc.get_set_of_ne _ _ (by decide), Doc.get_set_self]
  unfold openBody
  rw [hckp, hcontent]
  unfold Val.orElse
  rw [if_pos hpt]
  rcases hw.scope with hs | hs
  · rw [hs]
    exact hseals hblob _
  · rw [hs] at hblob
    exact hdual (hseals hblob _) _

theorem read_kept (hf : ∀ t, ReadsFloat float (float t)) (hdual : A.DualRead) (hR : R.OpensIn A) {strict : Bool}
    (hd : StoredDoc float A d) (h : decryptArtifactContent float R strict d = .ok d') :
    ∃ u, StepKept float A d d' ∧ SameOutside sealFields d u ∧ decryptBody float R strict u = .ok d' := by
  obtain ⟨u, hu, hbody⟩ := Mantle.bind_ok h
  obtain ⟨hkept, hbut⟩ := unseal_kept hf hR hd.json hd.own hu
  refine ⟨u, ?_, hbut, hbody⟩
  have hw : BodyWritten u d' ∧ JsonDoc float d' := by
    rcases decryptBody_cases hbody with ⟨-, hd' | ⟨v, hd'⟩⟩ | ⟨-, -, text, -, hd'⟩ | ⟨-, -, -, -, hd'⟩ | ⟨-, -, hd'⟩
    · rw [hd']
      exact ⟨BodyWritten.refl u, hkept.json⟩
    · refine ⟨?_, ?_⟩
      · rw [hd']
        exact bodyWritten_one u v
      · exact decryptBody_json hkept.json hbody
    · refine ⟨?_, decryptBody_json hkept.json hbody⟩
      rw [hd']
      exact bodyWritten_content u _ _
    · refine ⟨?_, decryptBody_json hkept.json hbody⟩
      rw [hd']
      exact bodyWritten_content u _ _
    · rw [hd']
      exact ⟨BodyWritten.refl u, hkept.json⟩
  have hb := body_kept hdual hkept.own hw.1 hw.2
  exact ⟨hb.json, hb.own, hkept.seen.trans hb.seen⟩

structure BodyKept (float : String → Flt) (A : Crypto) (d d' : Doc) : Prop where
  outside : (d'.get "content_ref").truthy = true → d'.get "content" = .str ""
  text : (d'.get "content").truthy = true → ∃ s, d'.get "content" = .str s
  seen : (∀ k ≠ "sealed", seenContext float A d' k = seenContext float A d k) →
    seenBody float A d' = seenBody float A d

theorem addressed_kept {m : Doc} (hd : StoredDoc float A d) (ha : addressed d = true) (hkeys : SameKeys d m)
    (href : m.get "content_ref" = d.get "content_ref")
    (h : d' = (m.set "content" (.str "")).set "content_encrypted" (.bool false)) : BodyKept float A d d' := by
  have hsame : SameKeys d d' := by
    rw [h]
    exact hkeys.trans (sameKeys_content m _ _)
  have hcontent : d'.get "content" = .str "" := by
    rw [h, Doc.get_set_of_ne _ _ (by decide), Doc.get_set_self]
  have href' : d'.get "content_ref" = d.get "content_ref" := by
    rw [h, Doc.get_set_of_ne _ _ (by decide), Doc.get_set_of_ne _ _ (by decide), href]
  obtain ⟨hr, -⟩ := Bool.and_eq_true_iff.mp ha
  have ha' : addressed d' = true := by
    unfold addressed
    rw [href', hr, hcontent]
    rfl
  refine ⟨fun _ => hcontent, ?_, ?_⟩
  · intro ht
    rw [hcontent] at ht
    cases ht
  · intro hseen
    unfold seenBody fetched
    rw [if_pos ha, if_pos ha', hsame.bodyPrincipals, hsame.scope, hseen "content_key" (by decide), href', hcontent,
      hd.outside hr]

theorem inline_kept (hseals : R.SealsFor A) (hdual : A.DualRead) {m : Doc} {s : String}
    (href : (m.get "content_ref").truthy = false) (hcontent : m.get "content" = .str s)
    (hplain : (m.get "content_encrypted").truthy = false) (hseen : seenBody float A d = some (.str s))
    (h : encryptBody R m = .ok d') : BodyKept float A d d' := by
  rcases encryptBody_cases h with ⟨hr, -⟩ | ⟨-, hor, hd'⟩ | ⟨-, -, p, blob, hp, hblob, hd'⟩
  · rw [href] at hr
    cases hr
  · rw [hd']
    have haddr : addressed m = false := by
      unfold addressed
      rw [href]
      rfl
    refine ⟨?_, fun _ => ⟨s, hcontent⟩, ?_⟩
    · intro hr
      rw [href] at hr
      cases hr
    · intro _
      rw [hseen]
      unfold seenBody
      rw [haddr, hplain, hcontent]
      rfl
  · rw [hcontent, Val.pyStr_str] at hblob
    have hopen := openBody_sealed hseals hdual hp hblob
    rw [← hd'] at hopen
    have hc' : d'.get "content" = .str blob := by
      rw [hd', Doc.get_set_of_ne _ _ (by decide), Doc.get_set_of_ne _ _ (by decide), Doc.get_set_self]
    have he' : d'.get "content_encrypted" = .bool true := by
      rw [hd', Doc.get_set_of_ne _ _ (by decide), Doc.get_set_self]
    have hr' : d'.get "content_ref" = m.get "content_ref" := by
      rw [hd', Doc.get_set_of_ne _ _ (by decide), Doc.get_set_of_ne _ _ (by decide),
        Doc.get_set_of_ne _ _ (by decide)]
    refine ⟨?_, fun _ => ⟨blob, hc'⟩, ?_⟩
    · intro hr
      rw [hr', href] at hr
      cases hr
    · intro _
      have haddr : addressed d' = false := by
        unfold addressed
        rw [hr', href]
        rfl
      rw [hseen]
      unfold seenBody
      rw [haddr, he', hopen]
      rfl

theorem SameOutside.addressed (h : SameOutside sealFields d d') : addressed d' = addressed d := by
  unfold Mantle.addressed
  rw [h.get (by decide), h.get (by decide)]

theorem save_kept {c : ReadSave} (hf : ∀ t, ReadsFloat float (float t)) (hdual : A.DualRead) (hblob : A.NeedsBlob)
    (hc : c.Under A) (hd : StoredDoc float A d) (hkeep : c.Keeps d) {raw : Doc}
    (hread : decryptArtifactContent float c.reader c.strict d = .ok raw)
    (hsave : encryptArtifactContent float c.writer raw = .ok d') : StepKept float A d d' ∧ BodyKept float A d d' := by
  obtain ⟨u, hkept, hu, hbody⟩ := read_kept hf hdual hc.reads hd hread
  obtain ⟨m, hm, henc⟩ := Mantle.bind_ok hsave
  obtain ⟨hsealed, hmbut⟩ := seal_kept hf hc.writes hc.sealsFor hdual hblob hkept.json hkept.own hm
  have hlast := body_kept hdual hsealed.own (encryptBody_written henc) (encryptBody_json hsealed.json henc)
  refine ⟨⟨hlast.json, hlast.own, hkept.seen.trans (hsealed.seen.trans hlast.seen)⟩, ?_⟩
  have hopen : ∀ R : Crypto, openBody R u = openBody R d := fun R =>
    hu.keys.openBody (hu.get (by decide))
  -- without an address, a body that is not addressed is in the document
  have hplainRef : addressed u = false → (d.get "content_ref").truthy = false := by
    intro ha
    rw [hu.addressed] at ha
    cases hr : (d.get "content_ref").truthy with
    | false => rfl
    | true =>
      unfold addressed at ha
      rw [hr, hd.outside hr] at ha
      cases ha
  have hmref : ∀ k ∉ sealFields, m.get k = raw.get k := fun k hk => hmbut.get hk
  rcases decryptBody_cases hbody with ⟨ha, hraw⟩ | ⟨ha, hflag, text, ho, hraw⟩ | ⟨ha, hflag, hs, ho, hraw⟩ |
      ⟨ha, hflag, hraw⟩
  · -- the body is elsewhere
    have hrawKeys : SameKeys u raw ∧ raw.get "content_ref" = u.get "content_ref" := by
      rcases hraw with hraw | ⟨v, hraw⟩
      · rw [hraw]
        exact ⟨fun _ _ => rfl, rfl⟩
      · rw [hraw]
        refine ⟨?_, Doc.get_set_of_ne _ _ (by decide)⟩
        intro k hk
        refine Doc.get_set_of_ne _ _ ?_
        rintro rfl
        exact absurd hk (by decide)
    have hkeys : SameKeys d m := (hu.keys.trans hrawKeys.1).trans hmbut.keys
    have href : m.get "content_ref" = d.get "content_ref" := by
      rw [hmref _ (by decide), hrawKeys.2, hu.get (by decide)]
    rw [hu.addressed] at ha
    rcases encryptBody_cases henc with ⟨-, hd'⟩ | ⟨hr, -⟩ | ⟨hr, -⟩
    · exact addressed_kept hd ha hkeys href hd'
    · rw [href, (Bool.and_eq_true_iff.mp ha).1] at hr
      cases hr
    · rw [href, (Bool.and_eq_true_iff.mp ha).1] at hr
      cases hr
  · -- the body is opened
    have href : (m.get "content_ref").truthy = false := by
      rw [hmref _ (by decide), hraw, Doc.get_set_of_ne _ _ (by decide), Doc.get_set_of_ne _ _ (by decide),
        hu.get (by decide)]
      exact hplainRef ha
    have hcontent : m.get "content" = .str text := by
      rw [hmref _ (by decide), hraw, Doc.get_set_of_ne _ _ (by decide), Doc.get_set_self]
    have hplain : (m.get "content_encrypted").truthy = false := by
      rw [hmref _ (by decide), hraw, Doc.get_set_self]
      rfl
    refine inline_kept hc.sealsFor hdual href hcontent hplain ?_ henc
    rw [hopen] at ho
    have hoA : openBody A d = .ok text := hc.reads ho
    rw [hu.addressed] at ha
    rw [hu.get (by decide)] at hflag
    unfold seenBody
    rw [ha, hflag, hoA]
    rfl
  · -- the body is not opened, which the condition excludes
    rw [hopen] at ho
    rw [hu.addressed] at ha
    rw [hu.get (by decide)] at hflag
    rcases hkeep with h | h | h | h
    · rw [hs] at h
      cases h
    · rw [ha] at h
      cases h
    · rw [hflag] at h
      cases h
    · exact absurd ho h
  · -- the body is in the clear
    have hmget : ∀ k, k ∉ sealFields → m.get k = d.get k := by
      intro k hk
      rw [hmref k hk, hraw, hu.get hk]
    have href : (m.get "content_ref").truthy = false := by
      rw [hmget _ (by decide)]
      exact hplainRef ha
    rw [hu.addressed] at ha
    rw [hu.get (by decide)] at hflag
    have hseen : seenBody float A d = some (d.get "content") := by
      unfold seenBody
      rw [ha, hflag]
      rfl
    by_cases ht : (d.get "content").truthy = true
    · obtain ⟨s, hcontent⟩ := hd.text ht
      refine inline_kept hc.sealsFor hdual href ((hmget _ (by decide)).trans hcontent) ?_ ?_ henc
      · rw [hmget _ (by decide)]
        exact hflag
      · rw [hseen, hcontent]
    · have hfalse : (d.get "content").truthy = false := Bool.not_eq_true _ |>.mp ht
      have hd' : d' = m := by
        rcases encryptBody_cases henc with ⟨hr, -⟩ | ⟨-, -, hd'⟩ | ⟨-, hcont, -⟩
        · rw [href] at hr
          cases hr
        · exact hd'
        · rw [hmget _ (by decide), hfalse] at hcont
          cases hcont
      rw [hd']
      refine ⟨?_, ?_, ?_⟩
      · intro hr
        rw [href] at hr
        cases hr
      · intro hcont
        rw [hmget _ (by decide), hfalse] at hcont
        cases hcont
      · intro _
        have haddr : addressed m = false := by
          unfold addressed
          rw [href]
          rfl
        rw [hseen]
        unfold seenBody
        rw [haddr, hmget "content_encrypted" (by decide), hflag, hmget "content" (by decide)]
        rfl

/-- **One read and save**: the document stays a stored one, and what is recovered from it stays. -/
theorem ReadSave.run_recovered {c : ReadSave} (hf : ∀ t, ReadsFloat float (float t)) (hdual : A.DualRead)
    (hblob : A.NeedsBlob) (hc : c.Under A) (hd : StoredDoc float A d) (hkeep : c.Keeps d) :
    StoredDoc float A (c.run float d) ∧ recovered float A (c.run float d) = recovered float A d := by
  unfold ReadSave.run
  cases h : (decryptArtifactContent float c.reader c.strict d).bind (encryptArtifactContent float c.writer) with
  | error e => exact ⟨hd, rfl⟩
  | ok d' =>
    obtain ⟨raw, hread, hsave⟩ := Mantle.bind_ok h
    obtain ⟨hstep, hbody⟩ := save_kept hf hdual hblob hc hd hkeep hread hsave
    have hd' : StoredDoc float A d' := ⟨hstep.json, hstep.own, hbody.outside, hbody.text⟩
    refine ⟨hd', ?_⟩
    dsimp only
    have hctx : (fun k => if k = "sealed" then none else seenContext float A d' k) =
        fun k => if k = "sealed" then none else seenContext float A d k := by
      funext k
      split_ifs with hk
      · rfl
      · exact hstep.seen.context k hk
    rw [recovered_eq hf hd', recovered_eq hf hd, hbody.seen hstep.seen.context, hctx,
      hstep.seen.field "name" (.inl rfl), hstep.seen.field "description" (.inr rfl)]

/-! ### Runs -/

/-- The documents that are stored one after the other. -/
def readSaves (float : String → Flt) (d : Doc) (cs : List ReadSave) : Doc := cs.foldl (fun d c => c.run float d) d

/-- Every read and save meets the condition on the document it reads. -/
def KeepsAll (float : String → Flt) : Doc → List ReadSave → Prop
  | _, [] => True
  | d, c :: cs => c.Keeps d ∧ KeepsAll float (c.run float d) cs

/-- **Reading and saving destroys nothing**, as long as no lenient read meets an inline body that it cannot open. -/
theorem read_save_keeps (float : String → Flt) (hf : ∀ t, ReadsFloat float (float t)) (A : Crypto)
    (hdual : A.DualRead) (hblob : A.NeedsBlob) : ∀ (cs : List ReadSave) (d : Doc), StoredDoc float A d →
    (∀ c ∈ cs, c.Under A) → KeepsAll float d cs → recovered float A (readSaves float d cs) = recovered float A d
  | [], _, _, _, _ => rfl
  | c :: cs, d, hd, hall, hkeep => by
    obtain ⟨hd', heq⟩ := ReadSave.run_recovered hf hdual hblob (hall c List.mem_cons_self) hd hkeep.1
    rw [← heq]
    exact read_save_keeps float hf A hdual hblob cs (c.run float d) hd'
      (fun c' hc' => hall c' (List.mem_cons_of_mem _ hc')) hkeep.2

theorem storedDoc_of_encrypt (hf : ∀ t, ReadsFloat float (float t)) (hdual : A.DualRead) (hblob : A.NeedsBlob)
    (hR : R.OpensIn A) (hseals : R.SealsFor A) (hd : JsonDoc float d) (hown : OwnSeal float A d)
    (htext : (d.get "content").truthy = true → ∃ s, d.get "content" = .str s)
    (h : encryptArtifactContent float R d = .ok d') : StoredDoc float A d' := by
  obtain ⟨m, hm, henc⟩ := Mantle.bind_ok h
  obtain ⟨hkept, hbut⟩ := seal_kept hf hR hseals hdual hblob hd hown hm
  have hlast := body_kept hdual hkept.own (encryptBody_written henc) (encryptBody_json hkept.json henc)
  refine ⟨hlast.json, hlast.own, ?_, ?_⟩
  · intro hr
    rcases encryptBody_cases henc with ⟨-, hd'⟩ | ⟨href, -, hd'⟩ | ⟨href, -, p, blob, -, -, hd'⟩
    · rw [hd', Doc.get_set_of_ne _ _ (by decide), Doc.get_set_self]
    · rw [hd', href] at hr
      cases hr
    · rw [hd', Doc.get_set_of_ne _ _ (by decide), Doc.get_set_of_ne _ _ (by decide),
        Doc.get_set_of_ne _ _ (by decide), href] at hr
      cases hr
  · intro hcontent
    rcases encryptBody_cases henc with ⟨-, hd'⟩ | ⟨-, -, hd'⟩ | ⟨-, -, p, blob, -, -, hd'⟩
    · exact ⟨"", by rw [hd', Doc.get_set_of_ne _ _ (by decide), Doc.get_set_self]⟩
    · rw [hd', hbut.get (by decide)] at hcontent ⊢
      exact htext hcontent
    · exact ⟨blob, by
        rw [hd', Doc.get_set_of_ne _ _ (by decide), Doc.get_set_of_ne _ _ (by decide), Doc.get_set_self]⟩

end Cycle

/-! ### On one document -/

def inlineNote : Doc := (noteDoc titledContext).set "content" (.str "minutes")

theorem inlineNote_stored : StoredDoc flatFloat markCipher (storedAs inlineNote) := by
  obtain ⟨hseals, hdual, hblob, -⟩ := markCipher_opens
  refine storedDoc_of_encrypt flatFloat_reads hdual hblob (fun h => h) hseals
    ((noteDoc_json titledContext_json).set "content" (isJson_str _)) ?_ (fun _ => ⟨"minutes", rfl⟩)
    (encrypt_storedAs (by decide +kernel))
  intro ctx b hc hs
  have hctx : contextDict flatFloat inlineNote = (some [("title", .str "Figures"), ("stream", .str "k")], false) := rfl
  have heq := hctx.symm.trans hc
  cases heq
  cases hs

def lostCipher : Crypto := { markCipher with openBlob := fun _ _ _ _ => .error .failed }

theorem read_save_keeps_strict :
    recovered flatFloat markCipher (readSaves flatFloat (storedAs inlineNote) [⟨markCipher, markCipher, true⟩]) =
      recovered flatFloat markCipher (storedAs inlineNote) := by
  obtain ⟨hseals, hdual, hblob, -⟩ := markCipher_opens
  refine read_save_keeps flatFloat flatFloat_reads markCipher hdual hblob _ _ inlineNote_stored ?_ ⟨.inl rfl, trivial⟩
  intro c hc
  rw [List.mem_singleton.mp hc]
  exact ⟨fun h => h, fun h => h, hseals⟩

theorem lenient_save_loses_body :
    ¬ ∀ (float : String → Flt), (∀ t, ReadsFloat float (float t)) → ∀ A : Crypto, A.DualRead → A.NeedsBlob →
      ∀ (cs : List ReadSave) (d : Doc), StoredDoc float A d → (∀ c ∈ cs, c.Under A) →
      recovered float A (readSaves float d cs) = recovered float A d := by
  intro h
  obtain ⟨hseals, hdual, hblob, -⟩ := markCipher_opens
  have heq := h flatFloat flatFloat_reads markCipher hdual hblob [⟨lostCipher, markCipher, false⟩]
    (storedAs inlineNote) inlineNote_stored (by
      intro c hc
      rw [List.mem_singleton.mp hc]
      exact ⟨fun ho => (nomatch ho), fun ho => ho, hseals⟩)
  obtain ⟨hbefore, hafter⟩ : (recovered flatFloat markCipher (storedAs inlineNote)).isSome = true ∧
      (recovered flatFloat markCipher (readSaves flatFloat (storedAs inlineNote)
        [⟨lostCipher, markCipher, false⟩])).isSome = false := by decide +kernel
  rw [heq, hbefore] at hafter
  cases hafter

end Mantle
