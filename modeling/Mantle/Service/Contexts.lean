import Mantle.Access.Facets
import Mantle.Service.Artifacts

/-!
# Mantle.Service.Contexts — what a written context reads back as

The services write a context as a text and read it back as a dictionary, and leave the address of the body alone, but
for `_record_content_address`.
-/

namespace Mantle

open Json

variable {k : String} {v : Val}

theorem Doc.get_of_find? {d : Doc} (h : d.find? k = some v) : d.get k = v := by
  unfold Doc.get
  rw [h]
  rfl

theorem Doc.get_of_sameFind {d d' : Doc} (h : d'.find? k = d.find? k) : d'.get k = d.get k := by
  unfold Doc.get
  rw [h]

variable {keys : Doc}

section Reading

variable {float : String → Flt}

theorem loadedContext_json (hf : ∀ t, ReadsFloat float (float t)) (v : Val) :
    JsonDoc float (loadedContext float v) := by
  unfold loadedContext
  split
  · rename_i s
    split_ifs
    · exact .nil
    · split
      · rename_i items hl
        exact (jsonDoc_docOfItems (loads_json hf hl)).1
      · exact .nil
  · exact .nil

theorem find?_parseContext_str (s : String) (hk : k ≠ "_opaque") :
    (parseContext float (.str s)).find? k = (loadedContext float (.str s)).find? k := by
  unfold parseContext loadedContext
  dsimp only
  by_cases hs : s = ""
  · rw [if_pos hs, if_pos hs]
  · rw [if_neg hs, if_neg hs]
    cases hl : loads float s with
    | none => simp [Doc.find?, hk.symm]
    | some v => cases v <;> simp [Doc.find?, hk.symm]

theorem reads_dumps {d : Doc} {t : String} (h : JsonDoc float d) (ht : d.dumps .plain = .ok t) :
    t ≠ "" ∧ loadedContext float (.str t) = d ∧ parseContext float (.str t) = d := by
  have hloads := h.loads ht
  have hne : t ≠ "" := by
    rintro rfl
    rw [loads_empty] at hloads
    cases hloads
  refine ⟨hne, ?_, ?_⟩
  · unfold loadedContext
    simp only [if_neg hne, hloads, docOfItems_toItems]
  · unfold parseContext
    simp only [if_neg hne, hloads, docOfItems_toItems]

theorem withClientKeysText_reads {ctx : Doc} (hc : JsonDoc float ctx) (hk : JsonDoc float keys)
    (h : withClientKeysText ctx keys = .ok v) :
    ∃ t, v = .str t ∧ t ≠ "" ∧ loadedContext float v = withClientKeys ctx keys := by
  obtain ⟨t, ht, rfl⟩ := Mantle.map_ok h
  obtain ⟨hne, hload, -⟩ := reads_dumps (withClientKeys_json hc hk) ht
  exact ⟨t, rfl, hne, hload⟩

end Reading

/-! ### Clean seals -/

section Clean

variable (float : String → Flt) (text : String → String)

/-- Opened parts that restore no address and no seal, and of the document a name and a description at most. -/
structure CleanParts (f t : Doc) : Prop where
  address : f.find? "content_cas_ref" = none
  key : f.find? "content_key" = none
  sealed : f.find? "sealed" = none
  caller : (callerPart f).find? "sealed" = none
  fields : ∀ e ∈ t, (e.1 = "name" ∨ e.1 = "description") ∧ ∃ s, e.2 = .str s

def CleanSeal (v : Val) : Prop :=
  ∀ items b parts f t, v = .dict items → (docOfItems items).get "blob" = .str b →
    openedPayload float (text b) = some parts → dictOr parts.1 = .ok f → dictOr parts.2 = .ok t → CleanParts f t

/-- A context with a clean seal and none under `caller`. -/
structure CleanContext (ctx : Doc) : Prop where
  sealed : CleanSeal float text (ctx.get "sealed")
  caller : (callerPart ctx).find? "sealed" = none

def NoSeal (ctx : Doc) : Prop := ctx.find? "sealed" = none ∧ (callerPart ctx).find? "sealed" = none

/-- A context with the same address of the body, and clean if the other is. -/
structure KeepsAddress (c c' : Doc) : Prop where
  ref : c'.find? "content_cas_ref" = c.find? "content_cas_ref"
  key : c'.find? "content_key" = c.find? "content_key"
  clean : CleanContext float text c → CleanContext float text c'

end Clean

section Keeping

variable {float : String → Flt} {text : String → String} {c c' c'' : Doc}

theorem CleanSeal.none : CleanSeal float text .none := fun _ _ _ _ _ h => (nomatch h)

theorem NoSeal.clean (h : NoSeal c) : CleanContext float text c where
  sealed := by
    have hget : c.get "sealed" = .none := by
      unfold Doc.get
      rw [h.1]
      rfl
    rw [hget]
    exact .none
  caller := h.2

theorem CleanContext.congr (h : CleanContext float text c) (hs : c'.find? "sealed" = c.find? "sealed")
    (hc : c'.find? "caller" = c.find? "caller") : CleanContext float text c' where
  sealed := by
    have hget : c'.get "sealed" = c.get "sealed" := by
      unfold Doc.get
      rw [hs]
    rw [hget]
    exact h.sealed
  caller := by
    have hcaller : callerPart c' = callerPart c := by
      unfold callerPart Doc.get
      rw [hc]
    rw [hcaller]
    exact h.caller

theorem KeepsAddress.refl : KeepsAddress float text c c := ⟨rfl, rfl, id⟩

theorem KeepsAddress.trans (h : KeepsAddress float text c c') (h' : KeepsAddress float text c' c'') :
    KeepsAddress float text c c'' :=
  ⟨h'.ref.trans h.ref, h'.key.trans h.key, h'.clean ∘ h.clean⟩

theorem KeepsAddress.of_find?
    (h : ∀ k ∈ ["content_cas_ref", "content_key", "sealed", "caller"], c'.find? k = c.find? k) :
    KeepsAddress float text c c' :=
  ⟨h _ (by simp), h _ (by simp), fun hc => hc.congr (h _ (by simp)) (h _ (by simp))⟩

theorem KeepsAddress.parse (s : String) :
    KeepsAddress float text (loadedContext float (.str s)) (parseContext float (.str s)) := by
  refine .of_find? fun k hk => find?_parseContext_str s ?_
  rintro rfl
  simp at hk

theorem find?_clientView (hc : KeysNodup c) (hk : k ∉ serverOwnedKeys) :
    (clientView c).find? k = (c.find? k).or ((callerPart c).find? k) := by
  have hnodup : KeysNodup (clientPart c) := hc.sublist (List.filter_sublist.map Prod.fst)
  have hpart : (clientPart c).find? k = c.find? k := by
    unfold clientPart
    rw [Doc.find?_without_list, if_neg hk]
  have hview : clientView c = (callerPart c).update (clientPart c) := rfl
  rw [hview, Doc.find?_update hnodup, hpart]

theorem clientView_json (hc : JsonDoc float c) : JsonDoc float (clientView c) := by
  have hview : clientView c = (callerPart c).update (clientPart c) := rfl
  rw [hview]
  exact (callerPart_json hc).update (hc.without _)

theorem clean_withClientKeys (hk : KeysNodup keys) (hs : CleanSeal float text (keys.get "sealed")) :
    CleanContext float text (withClientKeys c keys) where
  sealed := by
    have hget : (withClientKeys c keys).get "sealed" = keys.get "sealed" := by
      unfold Doc.get
      rw [find?_withClientKeys c hk, if_pos (by decide)]
    rw [hget]
    exact hs
  caller := by
    have hcaller : (withClientKeys c keys).get "caller" = .none := by
      unfold Doc.get
      rw [find?_withClientKeys c hk, if_neg (by decide), if_pos rfl]
      rfl
    unfold callerPart
    rw [hcaller]
    rfl

theorem keepsAddress_withClientKeys {keys : Doc} (hk : KeysNodup keys)
    (hs : CleanContext float text c → CleanSeal float text (keys.get "sealed")) :
    KeepsAddress float text c (withClientKeys c keys) := by
  refine ⟨?_, ?_, fun hc => clean_withClientKeys hk (hs hc)⟩
  · rw [find?_withClientKeys c hk, if_neg (by decide), if_neg (by decide)]
  · rw [find?_withClientKeys c hk, if_neg (by decide), if_neg (by decide)]

theorem CleanContext.view (h : CleanContext float text c) (hc : KeysNodup c) :
    CleanSeal float text ((clientView c).get "sealed") := by
  have hget : (clientView c).get "sealed" = c.get "sealed" := by
    unfold Doc.get
    rw [find?_clientView hc (by decide), h.caller, Option.or_none]
  rw [hget]
  exact h.sealed

end Keeping

/-! ### What the services write -/

section Writes

variable {float : String → Flt} (text : String → String) (hf : ∀ t, ReadsFloat float (float t)) {s : String}
  {v : Val}

theorem view_written {c : Doc} (hc : JsonDoc float c) (h : withClientKeysText c (clientView c) = .ok v) :
    ∃ t, v = .str t ∧ KeepsAddress float text c (loadedContext float v) := by
  obtain ⟨t, hv, -, hload⟩ := withClientKeysText_reads hc (clientView_json hc) h
  rw [hload]
  exact ⟨t, hv, keepsAddress_withClientKeys (clientView_json hc).nodup fun h => h.view hc.nodup⟩

include hf

theorem readdressed_keepsAddress {sha256 : String → String} {content : String}
    (h : readdressed float sha256 (.str s) content = .ok v) :
    ∃ t, v = .str t ∧ KeepsAddress float text (loadedContext float (.str s)) (loadedContext float v) := by
  have hp : JsonDoc float ((parseContext float (.str s)).without (· = "enriched")) :=
    (parseContext_json hf (isJson_str s)).without _
  have hcases : ∃ c, JsonDoc float c ∧ withClientKeysText c (clientView c) = .ok v ∧
      KeepsAddress float text ((parseContext float (.str s)).without (· = "enriched")) c := by
    unfold readdressed at h
    dsimp only at h
    cases ha : ((parseContext float (.str s)).without (· = "enriched")).get "addressing" with
    | dict items =>
      rw [ha] at h
      refine ⟨_, ?_, h, .of_find? fun k hk => ?_⟩
      · have hitems := hp.get "addressing"
        rw [ha] at hitems
        refine hp.set _ (JsonDoc.toItems (((jsonDoc_docOfItems hitems).1.set _ ?_).set _ ?_))
        · exact isJson_str _
        · exact isJson_int _
      · rw [Doc.find?_set, if_neg]
        rintro rfl
        simp at hk
    | _ =>
      rw [ha] at h
      exact ⟨_, hp, h, .refl⟩
  obtain ⟨c, hc, hwrite, hkeeps⟩ := hcases
  obtain ⟨t, hv, hlast⟩ := view_written text hc hwrite
  refine ⟨t, hv, (KeepsAddress.parse s).trans (KeepsAddress.trans (.of_find? fun k hk => ?_) (hkeeps.trans hlast))⟩
  refine Doc.find?_without _ (decide_eq_false ?_)
  rintro rfl
  simp at hk

theorem withContentType_keepsAddress {contentType : String} (h : withContentType float (.str s) contentType = .ok v) :
    ∃ t, v = .str t ∧ KeepsAddress float text (loadedContext float (.str s)) (loadedContext float v) := by
  have hp := parseContext_json hf (isJson_str s)
  unfold withContentType at h
  dsimp only at h
  split_ifs at h with hsame
  · cases h
    exact ⟨s, rfl, .refl⟩
  · have hkeys : JsonDoc float ((clientView (parseContext float (.str s))).set "content_type" (.str contentType)) :=
      (clientView_json hp).set _ (isJson_str _)
    obtain ⟨t, hv, -, hload⟩ := withClientKeysText_reads hp hkeys h
    rw [hload]
    refine ⟨t, hv, (KeepsAddress.parse s).trans (keepsAddress_withClientKeys hkeys.nodup fun hc => ?_)⟩
    rw [Doc.get_set_of_ne _ _ (by decide)]
    exact hc.view hp.nodup

theorem mergeUpdate_keepsAddress {update : Val} (hu : IsJson float update) (hs : NoSeal (parseContext float update))
    (h : mergeUpdate float (.str s) update = .ok v) :
    ∃ t, v = .str t ∧ KeepsAddress float text (loadedContext float (.str s)) (loadedContext float v) := by
  have hp := parseContext_json hf (isJson_str s)
  have hkeys : JsonDoc float (updateKeys (parseContext float update) (parseContext float (.str s))) :=
    updateKeys_json (parseContext_json hf hu)
  obtain ⟨t, hv, -, hload⟩ := withClientKeysText_reads hp hkeys h
  rw [hload]
  refine ⟨t, hv, (KeepsAddress.parse s).trans (keepsAddress_withClientKeys hkeys.nodup fun _ => ?_)⟩
  have hnone : (updateKeys (parseContext float update) (parseContext float (.str s))).find? "sealed" = none := by
    unfold updateKeys
    dsimp only
    split
    · exact hs.2
    · have hnodup : KeysNodup (clientPart (parseContext float update)) :=
        ((parseContext_json hf hu).without _).nodup
      have htop : (clientPart (parseContext float update)).find? "sealed" = none := by
        unfold clientPart
        rw [Doc.find?_without_list, if_neg (by decide)]
        exact hs.1
      rw [Doc.find?_update hnodup, htop, Option.none_or]
      by_cases hheld : ((clientPart (parseContext float (.str s))).find? "sealed").isSome = true
      · exact Doc.find?_without_of _ hheld
      · rw [Doc.find?_without _ (by simpa using hheld)]
        exact hs.2
  unfold Doc.get
  rw [hnone]
  exact .none

theorem recordContentAddress_reads {key : String} {ref : Option String}
    (h : recordContentAddress float (.str s) key ref = .ok v) :
    ∃ t, v = .str t ∧ (loadedContext float v).find? "content_key" = some (.str key) ∧
      (loadedContext float v).find? "content_cas_ref" = (ref.filter (· ≠ "")).map .str ∧
      (CleanContext float text (loadedContext float (.str s)) → CleanContext float text (loadedContext float v)) := by
  have hl := (loadedContext_json hf (.str s)).set "content_key" (isJson_str key)
  have hkey := Doc.find?_set (loadedContext float (.str s)) "content_key" "content_key" (.str key)
  have hcases : ∃ c, JsonDoc float c ∧ withClientKeysText c (clientView c) = .ok v ∧
      c.find? "content_key" = some (.str key) ∧ c.find? "content_cas_ref" = (ref.filter (· ≠ "")).map .str ∧
      ∀ k ∈ ["sealed", "caller"], c.find? k = (loadedContext float (.str s)).find? k := by
    unfold recordContentAddress at h
    dsimp only at h
    have hsame : ∀ k ∈ ["sealed", "caller"], ((loadedContext float (.str s)).set "content_key" (.str key)).find? k =
        (loadedContext float (.str s)).find? k := by
      intro k hk
      rw [Doc.find?_set, if_neg]
      rintro rfl
      simp at hk
    have hpop : ∀ k, k ≠ "content_cas_ref" →
        (((loadedContext float (.str s)).set "content_key" (.str key)).without (· = "content_cas_ref")).find? k =
          ((loadedContext float (.str s)).set "content_key" (.str key)).find? k := by
      intro k hk
      exact Doc.find?_without _ (decide_eq_false hk)
    have hother : ∀ k ∈ ["sealed", "caller"], k ≠ "content_cas_ref" := by
      rintro k hk rfl
      simp at hk
    have hgone : ∃ c, c = ((loadedContext float (.str s)).set "content_key" (.str key)).without
          (· = "content_cas_ref") ∧ JsonDoc float c ∧ c.find? "content_key" = some (.str key) ∧
        c.find? "content_cas_ref" = none ∧ ∀ k ∈ ["sealed", "caller"], c.find? k =
          (loadedContext float (.str s)).find? k := by
      refine ⟨_, rfl, hl.without _, ?_, ?_, fun k hk => (hpop k (hother k hk)).trans (hsame k hk)⟩
      · rw [hpop _ (by decide), hkey, if_pos rfl]
      · exact Doc.find?_without_of _ (by simp)
    obtain ⟨c, hc, hjson, hck, hcr, hcs⟩ := hgone
    cases ref with
    | none =>
      refine ⟨c, hjson, ?_, hck, hcr, hcs⟩
      rw [hc]
      exact h
    | some r =>
      dsimp only at h
      by_cases hr : r = ""
      · rw [if_pos hr, ← hc] at h
        refine ⟨c, hjson, h, hck, ?_, hcs⟩
        rw [hcr]
        simp [hr]
      · rw [if_neg hr] at h
        refine ⟨_, hl.set _ (isJson_str r), h, ?_, ?_, fun k hk => ?_⟩
        · rw [Doc.find?_set, if_neg (by decide), hkey, if_pos rfl]
        · rw [Doc.find?_set, if_pos rfl]
          simp [hr]
        · rw [Doc.find?_set, if_neg (hother k hk), hsame k hk]
  obtain ⟨c, hc, hwrite, hk, hr, hsame⟩ := hcases
  obtain ⟨t, hv, hkeeps⟩ := view_written text hc hwrite
  exact ⟨t, hv, hkeeps.key.trans hk, hkeeps.ref.trans hr,
    fun h => hkeeps.clean (h.congr (hsame _ (by simp)) (hsame _ (by simp)))⟩

theorem normalised_keepsAddress (h : normalised float (.str s) = .ok v) :
    ∃ t, v = .str t ∧ KeepsAddress float text (loadedContext float (.str s)) (loadedContext float v) := by
  have hp := parseContext_json hf (isJson_str s)
  unfold normalised at h
  dsimp only at h
  split_ifs at h with hopaque
  · cases h
    exact ⟨s, rfl, .refl⟩
  · obtain ⟨out, hout, hv⟩ := Mantle.map_ok h
    have hwrite : withClientKeysText (parseContext float (.str s)) (clientView (parseContext float (.str s))) =
        .ok (.str out) := by
      unfold withClientKeysText
      rw [hout]
      rfl
    obtain ⟨t, ht, hkeeps⟩ := view_written text hp hwrite
    have hor : v = .str s ∨ v = .str out := by
      rw [← hv]
      split
      · split_ifs
        · exact .inl rfl
        · exact .inr rfl
      · exact .inr rfl
    rcases hor with rfl | rfl
    · exact ⟨s, rfl, .refl⟩
    · exact ⟨out, rfl, (KeepsAddress.parse s).trans hkeeps⟩

end Writes

/-! ### Entities as they are put down -/

/-- A document as it is put down, without what is `None`. -/
def plainDoc (d : Doc) : Doc := docOfItems (stripItems (Doc.toItems (d.filter fun e => !e.2.isNone)))

theorem plainDoc_get {k : String} : ∀ {d : Doc}, KeysNodup d → (plainDoc d).get k = stripNones (d.get k)
  | [], _ => rfl
  | (x, v) :: d, h => by
    have hd : KeysNodup d := List.Nodup.of_cons h
    have hx : x ∉ d.map Prod.fst := (List.nodup_cons.mp h).1
    have ih := @plainDoc_get k d hd
    have hcons : (plainDoc ((x, v) :: d)).find? k =
        if x = k ∧ v.isNone = false then some (stripNones v) else (plainDoc d).find? k := find?_plain_cons
    unfold Doc.get at ih ⊢
    rw [hcons, Doc.find?]
    by_cases hk : x = k
    · subst hk
      rw [Doc.find?_of_notMem hx] at ih
      by_cases hv : v.isNone = true
      · cases v <;> simp_all [Val.isNone, stripNones]
      · simp [hv]
    · simp only [hk, false_and, if_false]
      exact ih

theorem plainDoc_find?_none : ∀ {d : Doc}, k ∉ d.map Prod.fst → (plainDoc d).find? k = none
  | [], _ => rfl
  | (x, v) :: d, h => by
    rw [List.map_cons, List.mem_cons, not_or] at h
    have hcons : (plainDoc ((x, v) :: d)).find? k =
        if x = k ∧ v.isNone = false then some (stripNones v) else (plainDoc d).find? k := find?_plain_cons
    rw [hcons, if_neg fun hk => h.1 hk.1.symm]
    exact plainDoc_find?_none h.2

theorem listedField_keys {d : Doc} (h : listedField k v = .ok d) :
    List.Sublist (d.map Prod.fst) [k] := by
  unfold listedField at h
  split_ifs at h
  · cases h
    exact List.nil_sublist _
  · obtain ⟨l, -, rfl⟩ := Mantle.map_ok h
    exact List.Sublist.refl _

/-- The fields of `to_dict`, in their order. -/
def artifactFields : List String :=
  ["id", "root_id", "collection_id", "context", "content", "state", "created_by", "created_time", "modified_by",
   "modified_time", "origin_root", "content_ref", "name", "description", "content_type", "content_encrypted", "lemmas",
   "colimit_of", "trashed_by", "trashed_time", "trashed_from", "parent_id"]

/-- An entity goes to the boundary as a document with its fields. -/
structure Plain (a : Artifact) (p : Doc) : Prop where
  id : p.get "id" = stripNones a.id
  collectionId : p.get "collection_id" = stripNones a.collectionId
  context : p.get "context" = stripNones a.context
  content : p.get "content" = stripNones a.content
  contentRef : p.get "content_ref" = stripNones a.contentRef
  name : p.get "name" = stripNones a.name
  description : p.get "description" = stripNones a.description
  originRoot : p.get "origin_root" = stripNones a.originRoot
  createdBy : p.get "created_by" = stripNones a.createdBy
  contentEncrypted : (p.get "content_encrypted").truthy = a.contentEncrypted
  others : ∀ k ∉ "_type" :: artifactFields, p.find? k = none

theorem toLatticeDoc_plain {float : String → Flt} {C : Crypto} {a : Artifact} {d : Doc}
    (h : toLatticeDoc float C a = .ok d) : ∃ p, encryptArtifactContent float C p = .ok d ∧ Plain a p := by
  obtain ⟨d₀, hd₀, h⟩ := Mantle.bind_ok h
  obtain ⟨lemmas, hl, hf⟩ := Mantle.bind_ok hd₀
  obtain ⟨colimit, hc, hf⟩ := Mantle.bind_ok hf
  cases hf
  generalize hd₀ : _ ++ [("parent_id", a.parentId)] = d₀ at h
  replace hd₀ := hd₀.symm
  have hkeys : List.Sublist (d₀.map Prod.fst) artifactFields := by
    have henc : List.Sublist ((if a.contentEncrypted then [("content_encrypted", Val.bool true)] else []).map Prod.fst)
        ["content_encrypted"] := by
      split_ifs
      · exact List.Sublist.refl _
      · exact List.nil_sublist _
    have htrash : List.Sublist ((if a.trashedBy.isNone then []
        else [("trashed_by", a.trashedBy), ("trashed_time", a.trashedTime), ("trashed_from", a.trashedFrom)]).map Prod.fst)
        ["trashed_by", "trashed_time", "trashed_from"] := by
      split_ifs
      · exact List.nil_sublist _
      · exact List.Sublist.refl _
    rw [hd₀]
    simp only [List.map_append]
    exact (((((List.Sublist.refl _).append henc).append (listedField_keys hl)).append (listedField_keys hc)).append
      htrash).append (List.Sublist.refl _)
  have hnodup : KeysNodup d₀ := List.Nodup.sublist hkeys (by decide)
  have hget : ∀ k, k ≠ "_type" → ((plainDoc d₀).set "_type" (.str "Artifact")).get k = stripNones (Doc.get d₀ k) := by
    intro k hk
    rw [Doc.get_set_of_ne _ _ hk, plainDoc_get hnodup]
  refine ⟨_, h, ?_⟩
  change Plain a ((plainDoc d₀).set "_type" (.str "Artifact"))
  refine ⟨?_, ?_, ?_, ?_, ?_, ?_, ?_, ?_, ?_, ?_, fun k hk => ?_⟩
  case refine_10 =>
    rw [hget _ (by decide), hd₀]
    cases henc : a.contentEncrypted with
    | true => rfl
    | false =>
      have hnot : "content_encrypted" ∉ d₀.map Prod.fst := by
        have h1 := (listedField_keys hl).subset
        have h2 := (listedField_keys hc).subset
        rw [hd₀, henc]
        intro hmem
        simp only [Bool.false_eq_true, if_false, List.append_nil, List.map_append, List.mem_append] at hmem
        rcases hmem with (((hmem | hmem) | hmem) | hmem) | hmem
        · revert hmem
          simp
        · exact absurd (h1 hmem) (by decide)
        · exact absurd (h2 hmem) (by decide)
        · split_ifs at hmem
          · cases hmem
          · revert hmem
            simp
        · revert hmem
          simp
      rw [hd₀, henc] at hnot
      unfold Doc.get
      rw [Doc.find?_of_notMem hnot]
      rfl
  case refine_11 =>
    rw [List.mem_cons, not_or] at hk
    rw [Doc.find?_set, if_neg hk.1]
    exact plainDoc_find?_none fun hmem => hk.2 (hkeys.subset hmem)
  all_goals rw [hget _ (by decide), hd₀]; rfl
end Mantle
