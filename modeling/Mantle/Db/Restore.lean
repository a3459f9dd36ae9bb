import Mantle.Db.Seal

/-!
# Mantle.Db.Restore — sealing is complete and reversible

A document whose context reads as a dictionary is stored with its structure alone in the clear; any other context stays
in the clear, and the name and description with it.
-/

namespace Mantle

open Json

variable {b strict : Bool} {k : String} {u : Doc}

section Restore

variable {float : String → Flt} {A R : Crypto} {d d' ctx : Doc}

/-- The reader is refused no key. -/
def Crypto.Holds (A : Crypto) : Prop := ∀ a p s b, A.openBlob a p s b ≠ .error .keyCustodyDenied

def OnlyStructure (float : String → Flt) (d : Doc) : Prop :=
  (∃ ctx b, contextDict float d = (some ctx, b) ∧
    ∀ k, (ctx.find? k).isSome = true → k ∈ structuralContextKeys ∨ k = "sealed") ∧
  (d.get "name").truthy = false ∧ (d.get "description").truthy = false

/-- What was in the context is there again; where it carried no seal of its own, nothing else is. -/
def Restores (float : String → Flt) (d r : Doc) : Prop :=
  ∀ ctx b, contextDict float d = (some ctx, b) →
    (∃ ctx', contextDict float r = (some ctx', b) ∧
      (∀ k ≠ "sealed", ∀ v, ctx.find? k = some v → ctx'.find? k = some v) ∧
      (ctx.find? "sealed" = none → ∀ k, ctx'.find? k = ctx.find? k)) ∧
    ∀ k ∈ ["name", "description"], (d.get k).truthy = true ∨ ctx.find? "sealed" = none → r.get k = d.get k

/-! ### The body -/

/-- The body is elsewhere. -/
def addressed (d : Doc) : Bool := (d.get "content_ref").truthy && !(d.get "content").truthy

/-- `decrypt_content` of an inline body. -/
def openBody (A : Crypto) (d : Doc) : Except Refusal String :=
  A.openBlob ((d.get "root_id").orElse (d.get "id")) ((d.get "content_key_principal").orElse (d.get "created_by"))
    (contentKeyScope d) (d.get "content")

theorem decryptBody_cases (h : decryptBody float A strict d = .ok d') :
    (addressed d = true ∧ (d' = d ∨ ∃ v, d' = d.set "content" v)) ∨
    (addressed d = false ∧ (d.get "content_encrypted").truthy = true ∧ ∃ text, openBody A d = .ok text ∧
      d' = (d.set "content" (.str text)).set "content_encrypted" (.bool false)) ∨
    (addressed d = false ∧ (d.get "content_encrypted").truthy = true ∧ strict = false ∧
      openBody A d = .error .failed ∧ d' = (d.set "content" .none).set "content_encrypted" (.bool true)) ∨
    (addressed d = false ∧ (d.get "content_encrypted").truthy = false ∧ d' = d) := by
  unfold decryptBody at h
  by_cases ha : addressed d = true
  · refine .inl ⟨ha, ?_⟩
    unfold addressed at ha
    rw [if_pos ha] at h
    dsimp only at h
    by_cases hp : (bodyPrincipals d).isEmpty = true
    · rw [if_pos hp] at h
      cases h
      exact .inl rfl
    · rw [if_neg hp] at h
      split at h
      · cases h
        exact .inr ⟨_, rfl⟩
      · split at h
        · cases h
        · cases h
          exact .inr ⟨_, rfl⟩
  · have ha' : addressed d = false := Bool.not_eq_true _ |>.mp ha
    unfold addressed at ha
    rw [if_neg ha] at h
    by_cases he : (d.get "content_encrypted").truthy = true
    · rw [if_pos he] at h
      split at h
      · rename_i text ho
        cases h
        exact .inr (.inl ⟨ha', he, text, ho, rfl⟩)
      · cases h
      · rename_i ho
        cases strict with
        | true => cases h
        | false =>
          cases h
          exact .inr (.inr (.inl ⟨ha', he, rfl, ho, rfl⟩))
    · rw [if_neg he] at h
      cases h
      exact .inr (.inr (.inr ⟨ha', Bool.not_eq_true _ |>.mp he, rfl⟩))

theorem decryptBody_written (h : decryptBody float A strict d = .ok d') :
    ∀ k ∉ bodyFields, d'.find? k = d.find? k := by
  rcases decryptBody_cases h with ⟨-, hd' | ⟨v, hd'⟩⟩ | ⟨-, -, text, -, hd'⟩ | ⟨-, -, -, -, hd'⟩ | ⟨-, -, hd'⟩
  · rw [hd']
    exact fun _ _ => rfl
  · rw [hd']
    intro k hk
    rw [Doc.find?_set, if_neg]
    rintro rfl
    exact hk (by decide)
  · rw [hd']
    exact (bodyWritten_content d _ _).others
  · rw [hd']
    exact (bodyWritten_content d _ _).others
  · rw [hd']
    exact fun _ _ => rfl

theorem decryptBody_json (hd : JsonDoc float d) (h : decryptBody float A strict d = .ok d') :
    JsonDoc float d' := by
  unfold decryptBody at h
  by_cases ha : ((d.get "content_ref").truthy && !(d.get "content").truthy) = true
  · rw [if_pos ha] at h
    dsimp only at h
    by_cases hp : (bodyPrincipals d).isEmpty = true
    · rw [if_pos hp] at h
      cases h
      exact hd
    · rw [if_neg hp] at h
      split at h
      · cases h
        exact hd.set _ (isJson_str _)
      · split at h
        · cases h
        · cases h
          exact hd.set _ (isJson_str _)
  · rw [if_neg ha] at h
    by_cases he : (d.get "content_encrypted").truthy = true
    · rw [if_pos he] at h
      split at h
      · cases h
        exact (hd.set _ (isJson_str _)).set _ (isJson_bool _)
      · cases h
      · split at h
        · cases h
        · cases h
          exact (hd.set _ isJson_none).set _ (isJson_bool _)
    · rw [if_neg he] at h
      cases h
      exact hd

theorem contextDict_of_find? (h : d'.find? "context" = d.find? "context") :
    contextDict float d' = contextDict float d := by
  unfold contextDict Doc.get
  rw [h]

theorem decryptBody_lenient (hA : A.Holds) (d : Doc) : ∃ r, decryptBody float A false d = .ok r := by
  unfold decryptBody
  by_cases ha : ((d.get "content_ref").truthy && !(d.get "content").truthy) = true
  · rw [if_pos ha]
    dsimp only
    by_cases hp : (bodyPrincipals d).isEmpty = true
    · rw [if_pos hp]
      exact ⟨_, rfl⟩
    · rw [if_neg hp]
      split
      · exact ⟨_, rfl⟩
      · exact ⟨_, rfl⟩
  · rw [if_neg ha]
    by_cases he : (d.get "content_encrypted").truthy = true
    · rw [if_pos he]
      split
      · exact ⟨_, rfl⟩
      · rename_i ho
        exact absurd ho (hA _ _ _ _)
      · exact ⟨_, rfl⟩
    · rw [if_neg he]
      exact ⟨_, rfl⟩

theorem putContext_writes (h : JsonDoc float ctx) (d : Doc) (b : Bool) : ∃ d', putContext d ctx b = .ok d' := by
  unfold putContext
  split_ifs
  · obtain ⟨t, ht⟩ := h.toItems.writes
    refine ⟨d.set "context" (.str t), ?_⟩
    have : Doc.dumps .plain ctx = .ok t := ht
    rw [this]
    rfl
  · exact ⟨_, rfl⟩

/-! ### What is in the clear -/

theorem not_mem_sealableKeys (ht : contentTypeOf d ctx ∉ readableContextTypes) (h : (ctx.find? k).isSome = true)
    (hk : k ∉ sealableKeys d ctx) : k ∈ structuralContextKeys ∨ k = "sealed" := by
  unfold sealableKeys at hk
  rw [if_neg ht, List.mem_filter, not_and] at hk
  have := hk (Doc.find?_isSome_iff.mp h)
  rw [Bool.and_eq_true, decide_eq_true_iff, decide_eq_true_iff, not_and_or, not_not, not_not] at this
  exact this

theorem contentTypeOf_clearContext (ht : contentTypeOf d ctx ∉ readableContextTypes) :
    contentTypeOf d (clearContext d ctx) = contentTypeOf d ctx := by
  have hnot : "content_type" ∉ sealableKeys d ctx := by
    intro hmem
    unfold sealableKeys at hmem
    rw [if_neg ht, List.mem_filter] at hmem
    exact absurd hmem.2 (by decide)
  have hct : (clearContext d ctx).get "content_type" = ctx.get "content_type" := by
    unfold Doc.get
    rw [find?_clearContext, if_neg hnot]
  unfold contentTypeOf
  rw [hct]

theorem falsy_of_not_sealed (ht : contentTypeOf d ctx ∉ readableContextTypes) (hk : k = "name" ∨ k = "description")
    (h : k ∉ sealedFields d ctx) : (d.get k).truthy = false := by
  unfold sealedFields sealableDocFields at h
  rw [contentTypeOf_clearContext ht, if_neg ht, List.mem_filter, not_and] at h
  exact Bool.not_eq_true _ |>.mp (h (by simpa using hk))

theorem get_clearDoc_falsy (ht : contentTypeOf d ctx ∉ readableContextTypes) (hk : k = "name" ∨ k = "description") :
    ((clearDoc d ctx).get k).truthy = false := by
  unfold Doc.get
  rw [find?_clearDoc]
  split_ifs with hmem
  · rfl
  · exact falsy_of_not_sealed ht hk hmem

theorem OnlyStructure.written (hb : BodyWritten d d') (h : OnlyStructure float d) : OnlyStructure float d' := by
  obtain ⟨⟨ctx, b, hc, hkeys⟩, hn, hdesc⟩ := h
  refine ⟨⟨ctx, b, hb.contextDict.trans hc, hkeys⟩, ?_, ?_⟩
  · rw [hb.get (by decide)]
    exact hn
  · rw [hb.get (by decide)]
    exact hdesc

theorem Seals.onlyStructure (hf : ∀ t, ReadsFloat float (float t)) (hd : JsonDoc float d) {f t : Doc} {p : Val}
    {blob : String} (h : Seals float R d d' ctx b f t p blob) (ht : contentTypeOf d ctx ∉ readableContextTypes) :
    OnlyStructure float d' := by
  refine ⟨⟨_, b, (h.context_after hf hd).1, ?_⟩, ?_, ?_⟩
  · intro k hk
    rw [Doc.find?_set] at hk
    split_ifs at hk with hs
    · exact .inr hs
    · rw [find?_clearContext] at hk
      split_ifs at hk with hmem
      · cases hk
      · exact not_mem_sealableKeys ht hk hmem
  · rw [putContext_get h.put (by decide)]
    exact get_clearDoc_falsy ht (.inl rfl)
  · rw [putContext_get h.put (by decide)]
    exact get_clearDoc_falsy ht (.inr rfl)

/-! ### What is read back -/

theorem decryptArtifactContent_ok {r : Doc} (h : decryptArtifactContent float A strict d = .ok r) :
    ∃ u, unsealContentFields float A d = .ok u ∧ ∀ k ∉ bodyFields, r.find? k = u.find? k := by
  obtain ⟨u, hu, hr⟩ := Mantle.bind_ok h
  exact ⟨u, hu, decryptBody_written hr⟩

theorem restores_of_unsealed {r : Doc} (h : ∀ k ∉ bodyFields, r.find? k = u.find? k) (hu : Restores float d u) :
    Restores float d r := by
  have hctx : contextDict float r = contextDict float u := contextDict_of_find? (h "context" (by decide))
  intro ctx b hc
  obtain ⟨⟨ctx', hc', hkeys⟩, hnames⟩ := hu ctx b hc
  refine ⟨⟨ctx', hctx.trans hc', hkeys⟩, ?_⟩
  intro k hk hor
  have hr : r.get k = u.get k := by
    unfold Doc.get
    rw [h k]
    intro hb
    simp only [List.mem_cons, List.not_mem_nil, or_false] at hk
    rcases hk with rfl | rfl <;> exact absurd hb (by decide)
  rw [hr]
  exact hnames k hk hor

theorem name_or_description (h : k ∈ ["name", "description"]) :
    (k = "name" ∨ k = "description") ∧ k ∉ bodyFields ∧ k ≠ "context" := by
  simp only [List.mem_cons, List.not_mem_nil, or_false] at h
  refine ⟨h, ?_⟩
  rcases h with rfl | rfl <;> decide

theorem restores_untouched (hf : ∀ t, ReadsFloat float (float t)) {d'' : Doc} (hj : JsonDoc float d'')
    (hc : contextDict float d = (some ctx, b)) (hw : BodyWritten d d'')
    (ht : contentTypeOf d ctx ∉ readableContextTypes) (hn : sealedFields d ctx = [])
    (hu : unsealContentFields float A d'' = .ok u) : Restores float d u := by
  intro ctx₀ b₀ hc₀
  rw [hc] at hc₀
  cases hc₀
  have hc'' : contextDict float d'' = (some ctx, b) := hw.contextDict.trans hc
  obtain ⟨ctx', hc', hseen⟩ := (unseal_seen hf hj hu).1 ctx b hc''
  have hplain : ctx.find? "sealed" = none → u = d'' := by
    intro hnone
    rw [unseal_of_none hc'' hnone] at hu
    cases hu
    rfl
  refine ⟨⟨ctx', hc', ?_, ?_⟩, ?_⟩
  · intro k hk v hv
    rw [hseen k hk]
    unfold seenContext
    rw [hc'']
    dsimp only
    rw [hv]
    rfl
  · intro hnone k
    rw [hplain hnone, hc''] at hc'
    cases hc'
    rfl
  · intro k hk hor
    obtain ⟨hnd, hb, -⟩ := name_or_description hk
    have hfalse : (d.get k).truthy = false := falsy_of_not_sealed ht hnd (by rw [hn]; exact List.not_mem_nil)
    rcases hor with htrue | hnone
    · rw [hfalse] at htrue
      cases htrue
    · rw [hplain hnone]
      exact hw.get hb

theorem restores_sealed (hf : ∀ t, ReadsFloat float (float t)) {d'' f t f₀ t₀ : Doc} {p : Val} {blob : String}
    (hd : JsonDoc float d) (h : Seals float R d d' ctx b f t p blob) (hm : Merges float A d ctx f t f₀ t₀)
    (hw : BodyWritten d' d'')
    (hparts : sealedParts float A d'' ((clearContext d ctx).set "sealed" (sealValue p blob)) = some (f, t))
    (ht : contentTypeOf d ctx ∉ readableContextTypes) (hu : unsealContentFields float A d'' = .ok u) :
    Restores float d u := by
  intro ctx₀ b₀ hc₀
  rw [h.context] at hc₀
  cases hc₀
  have hc'' := hw.contextDict.trans (h.context_after hf hd).1
  rw [unseal_of_parts hc'' hparts] at hu
  have hctx := contextDict_json hf hd h.context
  have hset : JsonDoc float (setDefaults (((clearContext d ctx).set "sealed" (sealValue p blob)).without
      (· = "sealed")) f) :=
    (((contextDict_json hf (h.context_after hf hd).2 (h.context_after hf hd).1)).without _).setDefaults hm.json.1
  -- the keys of the context: the clear ones, then the sealed ones
  have hfind : ∀ k ≠ "sealed", (setDefaults (((clearContext d ctx).set "sealed" (sealValue p blob)).without
      (· = "sealed")) f).find? k = (ctx.find? k).or (f₀.find? k) := by
    intro k hk
    rw [find?_setDefaults, Doc.find?_without _ (decide_eq_false hk), Doc.find?_set, if_neg hk, find?_clearContext,
      hm.fields]
    split_ifs with hmem
    · rw [(mem_sealableKeys hmem).2]
      rfl
    · rfl
  have hprior : ctx.find? "sealed" = none → f₀ = [] ∧ t₀ = [] := by
    intro hnone
    rcases hm.prior with hp | ⟨-, h1, h2⟩
    · rw [sealedParts_of_none hnone] at hp
      cases hp
    · exact ⟨h1, h2⟩
  refine ⟨⟨_, contextDict_putContext hset hu, ?_, ?_⟩, ?_⟩
  · intro k hk v hv
    rw [hfind k hk, hv]
    rfl
  · intro hnone k
    by_cases hk : k = "sealed"
    · subst hk
      rw [find?_setDefaults, Doc.find?_without_of _ (decide_eq_true rfl), hm.fields,
        if_neg fun hmem => (mem_sealableKeys hmem).1 rfl, (hprior hnone).1, hnone]
      rfl
    · rw [hfind k hk, (hprior hnone).1]
      cases ctx.find? k <;> rfl
  · intro k hk hor
    obtain ⟨hnd, hb, hne⟩ := name_or_description hk
    have hget : d''.get k = (clearDoc d ctx).get k := (hw.get hb).trans (putContext_get h.put hne)
    have hfalse : (d''.get k).truthy = false := by
      rw [hget]
      exact get_clearDoc_falsy ht hnd
    rw [putContext_get hu hne, get_restoreFields k hm.json.2.nodup, if_neg (by rw [hfalse]; decide), hm.top]
    by_cases hmem : k ∈ sealedFields d ctx
    · rw [if_pos hmem]
      rfl
    · rw [if_neg hmem]
      rcases hor with htrue | hnone
      · rw [falsy_of_not_sealed ht hnd hmem] at htrue
        cases htrue
      · rw [(hprior hnone).2, hget]
        unfold Doc.get
        rw [find?_clearDoc, if_neg hmem]
        rfl

/-- The reader's reads of a stored document give back what was written; a context without a seal of its own is
always read. -/
def ReadBack (float : String → Flt) (A : Crypto) (d d' : Doc) : Prop :=
  (∀ strict r, decryptArtifactContent float A strict d' = .ok r → Restores float d r) ∧
  ∀ ctx b, contextDict float d = (some ctx, b) → ctx.find? "sealed" = none →
    ∃ r, decryptArtifactContent float A false d' = .ok r

theorem readBack_of (hA : A.Holds) (hres : ∀ u, unsealContentFields float A d' = .ok u → Restores float d u)
    (hok : ∀ ctx b, contextDict float d = (some ctx, b) → ctx.find? "sealed" = none →
      ∃ u, unsealContentFields float A d' = .ok u) : ReadBack float A d d' := by
  refine ⟨?_, ?_⟩
  · intro strict r hr
    obtain ⟨u, hu, hbody⟩ := decryptArtifactContent_ok hr
    exact restores_of_unsealed hbody (hres u hu)
  · intro ctx b hc hnone
    obtain ⟨u, hu⟩ := hok ctx b hc hnone
    obtain ⟨r, hr⟩ : ∃ r, decryptBody float A false u = .ok r := decryptBody_lenient hA u
    refine ⟨r, ?_⟩
    unfold decryptArtifactContent
    rw [hu]
    exact hr

/-- **Sealing is complete and reversible exactly where the context reads as a dictionary.** -/
theorem seal_complete_iff (float : String → Flt) (hf : ∀ t, ReadsFloat float (float t)) (R A : Crypto)
    (hseals : R.SealsFor A) (hopens : R.OpensIn A) (hdual : A.DualRead) (hblob : A.NeedsBlob) (hA : A.Holds)
    (d d' : Doc) (hd : JsonDoc float d)
    (ht : contentTypeOf d ((contextDict float d).1.getD []) ∉ readableContextTypes)
    (henc : encryptArtifactContent float R d = .ok d') :
    (OnlyStructure float d' ∧ ReadBack float A d d') ↔ (contextDict float d).1.isSome = true := by
  obtain ⟨m, hm, hbody⟩ := Mantle.bind_ok henc
  have hw := encryptBody_written hbody
  refine ⟨?_, ?_⟩
  · rintro ⟨⟨⟨ctx, b, hc, -⟩, -, -⟩, -⟩
    rcases sealContentFields_cases hm with ⟨hnone, rfl⟩ | ⟨ctx', b', hc', -⟩ | ⟨ctx', b', f, t, p, blob, hs⟩
    · rw [hw.contextDict] at hc
      rw [hc]
      rfl
    · rw [hc']
      rfl
    · rw [hs.context]
      rfl
  · intro hsome
    rcases sealContentFields_cases hm with ⟨hnone, -⟩ | ⟨ctx, b, hc, hkeys, hn, rfl⟩ | ⟨ctx, b, f, t, p, blob, hs⟩
    · rw [hnone] at hsome
      cases hsome
    · rw [hc] at ht
      change contentTypeOf m ctx ∉ readableContextTypes at ht
      have hstruct : OnlyStructure float m := by
        refine ⟨⟨ctx, b, hc, fun k hk => not_mem_sealableKeys ht hk (by rw [hkeys]; exact List.not_mem_nil)⟩, ?_, ?_⟩
        · exact falsy_of_not_sealed ht (.inl rfl) (by rw [hn]; exact List.not_mem_nil)
        · exact falsy_of_not_sealed ht (.inr rfl) (by rw [hn]; exact List.not_mem_nil)
      refine ⟨hstruct.written hw, readBack_of hA ?_ ?_⟩
      · exact fun u hu => restores_untouched hf (encryptBody_json hd hbody) hc hw ht hn hu
      · intro ctx' b' hc' hnone
        rw [hc] at hc'
        cases hc'
        exact ⟨d', unseal_of_none (hw.contextDict.trans hc) hnone⟩
    · rw [hs.context] at ht
      change contentTypeOf d ctx ∉ readableContextTypes at ht
      obtain ⟨f₀, t₀, hmerge⟩ := hs.merges hf hopens hblob hd
      have hafter := hs.context_after hf hd
      have hparts : sealedParts float A d' ((clearContext d ctx).set "sealed" (sealValue p blob)) = some (f, t) :=
        hs.opens hseals hdual hmerge.json hw (by rw [Doc.find?_set, if_pos rfl])
      refine ⟨(hs.onlyStructure hf hd ht).written hw, readBack_of hA ?_ ?_⟩
      · exact fun u hu => restores_sealed hf hd hs hmerge hw hparts ht hu
      · intro _ _ _ _
        rw [unseal_of_parts (hw.contextDict.trans hafter.1) hparts]
        exact putContext_writes (((contextDict_json hf hafter.2 hafter.1).without _).setDefaults hmerge.json.1) _ _

end Restore

/-! ### On one document -/

def flatFloat (_ : String) : Flt := ⟨"1.5", "1.5", some 1, false, by decide⟩

theorem flatFloat_repr (t : String) : (flatFloat t).repr.toList = ['1', '.', '5'] := by
  have h : "1.5".toList = ['1', '.', '5'] := by decide
  exact h

theorem flatFloat_reads (t : String) : ReadsFloat flatFloat (flatFloat t) where
  head := ⟨'1', ['.', '5'], flatFloat_repr t, rfl, by decide, by decide⟩
  value := by
    intro fuel rest hr
    have hdigit : ∀ c ∈ ['5'], c.isDigit = true := by simp
    have hfive : digits ('5' :: rest) = (['5'], rest) := digits_append hdigit hr
    have hrepr : (flatFloat t).repr.toList ++ rest = '1' :: '.' :: '5' :: rest := by
      rw [flatFloat_repr]
      rfl
    have hone : digits ('1' :: '.' :: '5' :: rest) = (['1'], '.' :: '5' :: rest) := by
      unfold digits
      rw [List.span_eq_takeWhile_dropWhile]
      rfl
    rw [hrepr, (value_digit flatFloat fuel (by decide) _).1]
    have hint : intPart ('1' :: '.' :: '5' :: rest) = some (['1'], '.' :: '5' :: rest) := by
      unfold intPart
      rw [hone]
      rfl
    have hfrac : fracPart ('.' :: '5' :: rest) = (['.', '5'], rest) := by
      simp only [fracPart, hfive]
    have hnum : number flatFloat ('1' :: '.' :: '5' :: rest) =
        some (.float (flatFloat (String.ofList ([] ++ ['1'] ++ ['.', '5'] ++ []))), rest) := by
      simp [number, hint, hfrac, expPart_follow hr]
    rw [hnum]
    rfl

def markCipher : Crypto where
  openBlob
    | _, _, _, .str b => if b.toList.head? = some 's' then .ok (String.ofList b.toList.tail) else .error .failed
    | _, _, _, _ => .error .failed
  sealText _ _ _ text := some ("s" ++ text)
  hydrate _ _ _ _ := none

theorem markCipher_opens : markCipher.SealsFor markCipher ∧ markCipher.DualRead ∧ markCipher.NeedsBlob ∧
    markCipher.Holds := by
  refine ⟨?_, ?_, ?_, ?_⟩
  · intro p s c t b h a
    cases h
    simp [markCipher, String.toList_append]
  · intro a p b t h s
    cases b with
    | str b => exact h
    | _ => cases h
  · intro a p s b t h
    cases b with
    | str b =>
      simp only [Val.truthy_str, ne_eq, decide_not, Bool.not_eq_true', decide_eq_false_iff_not]
      rintro rfl
      cases h
    | _ => cases h
  · intro a p s b h
    cases b with
    | str b =>
      simp only [markCipher] at h
      split_ifs at h
      cases h
    | _ => cases h

def noteDoc (context : Val) : Doc :=
  [("id", .str "n"), ("content_type", .str "text/plain"), ("created_by", .str "u"), ("name", .str "Board"),
   ("context", context)]

def titledContext : Val := .dict [(.str "title", .str "Figures"), (.str "stream", .str "k")]

theorem noteDoc_json {v : Val} (h : IsJson flatFloat v) : JsonDoc flatFloat (noteDoc v) := by
  refine ⟨?_, ?_⟩
  · have hkeys : (noteDoc v).map Prod.fst = ["id", "content_type", "created_by", "name", "context"] := rfl
    unfold KeysNodup
    rw [hkeys]
    decide
  · intro e he
    simp only [noteDoc, List.mem_cons, List.not_mem_nil, or_false] at he
    rcases he with rfl | rfl | rfl | rfl | rfl
    · exact isJson_str _
    · exact isJson_str _
    · exact isJson_str _
    · exact isJson_str _
    · exact h

theorem titledContext_json : IsJson flatFloat titledContext := by
  have hj : JsonDoc flatFloat [("title", .str "Figures"), ("stream", .str "k")] := by
    refine ⟨by unfold KeysNodup; decide, ?_⟩
    intro e he
    simp only [List.mem_cons, List.not_mem_nil, or_false] at he
    rcases he with rfl | rfl
    · exact isJson_str _
    · exact isJson_str _
  exact hj.toItems

def storedAs (d : Doc) : Doc := (encryptArtifactContent flatFloat markCipher d).toOption.getD []

theorem encrypt_storedAs {d : Doc} (h : (encryptArtifactContent flatFloat markCipher d).toOption.isSome = true) :
    encryptArtifactContent flatFloat markCipher d = .ok (storedAs d) := by
  unfold storedAs
  cases he : encryptArtifactContent flatFloat markCipher d with
  | error e =>
    rw [he] at h
    cases h
  | ok r => rfl

theorem seal_complete_titled : OnlyStructure flatFloat (storedAs (noteDoc titledContext)) ∧
    ReadBack flatFloat markCipher (noteDoc titledContext) (storedAs (noteDoc titledContext)) := by
  obtain ⟨hseals, hdual, hblob, hA⟩ := markCipher_opens
  refine (seal_complete_iff flatFloat flatFloat_reads markCipher markCipher hseals (fun h => h) hdual hblob hA _ _
    (noteDoc_json titledContext_json) ?_ (encrypt_storedAs ?_)).mpr ?_
  · decide +kernel
  · decide +kernel
  · rfl

theorem text_context_unsealed :
    ¬ ∀ (float : String → Flt), (∀ t, ReadsFloat float (float t)) → ∀ R A : Crypto, R.SealsFor A → R.OpensIn A →
      A.DualRead → A.NeedsBlob → A.Holds → ∀ d d' : Doc, JsonDoc float d →
      contentTypeOf d ((contextDict float d).1.getD []) ∉ readableContextTypes →
      encryptArtifactContent float R d = .ok d' → OnlyStructure float d' ∧ ReadBack float A d d' := by
  intro h
  obtain ⟨hseals, hdual, hblob, hA⟩ := markCipher_opens
  obtain ⟨⟨-, hname, -⟩, -⟩ := h flatFloat flatFloat_reads markCipher markCipher hseals (fun h => h) hdual hblob hA
    (noteDoc (.str "figures of the board")) (storedAs (noteDoc (.str "figures of the board")))
    (noteDoc_json (isJson_str _)) (by decide +kernel) (encrypt_storedAs (by decide +kernel))
  exact absurd hname (by decide +kernel)

end Mantle
