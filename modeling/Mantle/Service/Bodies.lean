import Mantle.Content.Stored
import Mantle.Service.Contexts

/-!
# Mantle.Service.Bodies — a body kept by its row

A body is kept out of the row, at an address that the row and its context both name, or it is in the row, encrypted.
-/

namespace Mantle

open Json Run Tx

namespace Bodies

variable {S : Serving} {ctx f t u : Doc} {s : String} {v : Val}

/-! ### The media -/

/-- What all calls share: how numbers read, the digest of the addresses, and what each blob was sealed from. -/
structure Media where
  float : String → Flt
  sha256 : String → String
  text : String → String

abbrev Objects := String → Option String

/-- Its ciphers open a blob to what it was sealed from alone, it finds the object store as it is or not at all, and its
local tier verifies what it serves. -/
structure Served (M : Media) (objects : Objects) (S : Serving) : Prop where
  float : S.float = M.float
  digest : S.sha256 = M.sha256
  seals : ∀ {p s c t b}, S.ciphers.sealText p s c t = some b → M.text b = t
  opens : ∀ {a p s v t}, S.ciphers.openBlob a p s v = .ok t → ∃ b, v = .str b ∧ M.text b = t
  reads : ∃ openEnvelope T, S.ciphers.hydrate = getBytesDecrypted openEnvelope T ∧
    (∀ p s b t, openEnvelope p s b = some t → M.text b = t) ∧
    (∀ l r b, T.localTier = some l → l r = some b → casRefFor M.sha256 b = r) ∧
    ∀ o, T.objectStore = some o → o = objects
  stores : ∀ key data ct owner collection creator, ∃ T : PutTiers,
    (∀ b, T.envelope = some b → M.text b = data) ∧
      S.putBytes key data ct owner collection creator = (putBytesEncrypted M.sha256 T data owner).map Prod.fst

/-! ### A body and its address -/

def IsText (v : Val) : Prop := v = .none ∨ ∃ s, v = .str s

/-- A collection or a creator is named, for which a body can be opened. -/
def Owned (home creator : Val) : Prop := (∃ ws, ws ≠ "" ∧ home = .str ws) ∨ ∃ u, u ≠ "" ∧ creator = .str u

def KeyOf (x key : String) : Prop := ("/" ++ (x ++ ".content")).toList <:+ key.toList

section Faithful

variable (M : Media) (objects : Objects) (x last : String)

/-- The row and its context name one address, whose blob holds the body; the object under the content key, where
there is one, holds it too. -/
def Addressed (ref : Val) (ctx : Doc) : Prop :=
  ∃ r key, ref = .str r ∧ r ≠ "" ∧ ctx.find? "content_cas_ref" = some (.str r) ∧
    ctx.find? "content_key" = some (.str key) ∧ KeyOf x key ∧
    (∀ b, casRefFor M.sha256 b = r → M.text b = last) ∧ ∀ b, objects key = some b → M.text b = last

/-- Neither names an address. -/
def Unaddressed (ref : Val) (ctx : Doc) : Prop := ref = .none ∧ ctx.get "content_cas_ref" = .none

/-- An artifact as an entity, beside its body. -/
structure Shell (a : Artifact) : Prop where
  id : a.id = .str x
  state : a.state = stateLive ∨ a.state = stateArchived
  owned : Owned a.collectionId a.createdBy
  context : ∃ s, a.context = .str s
  clean : CleanContext M.float M.text (loadedContext M.float a.context)
  name : IsText a.name
  description : IsText a.description
  root : IsText a.originRoot
  creator : IsText a.createdBy
  encrypted : a.contentEncrypted = false

/-- The artifact as an entity with its body. -/
structure Member (a : Artifact) : Prop extends Shell M x a where
  content : a.content = .str last
  address : Addressed M objects x last a.contentRef (loadedContext M.float a.context) ∨
    Unaddressed a.contentRef (loadedContext M.float a.context)

/-- The body as a row keeps it: nowhere in the row where it is addressed, else in the clear where it is empty, or
encrypted. -/
inductive BodyKept (d : Doc) : Prop
  | addressed (h : Addressed M objects x last (d.get "content_ref") (loadedContext M.float (d.get "context")))
      (content : d.get "content" = .str "") (encrypted : (d.get "content_encrypted").truthy = false)
  | empty (h : Unaddressed (d.get "content_ref") (loadedContext M.float (d.get "context"))) (last : last = "")
      (content : d.get "content" = .str "") (encrypted : (d.get "content_encrypted").truthy = false)
  | encrypted (h : Unaddressed (d.get "content_ref") (loadedContext M.float (d.get "context"))) (blob : String)
      (content : d.get "content" = .str blob) (encrypted : (d.get "content_encrypted").truthy = true)
      (text : M.text blob = last)

structure RowKept (d : Doc) : Prop where
  id : d.get "id" = .str x
  state : ∃ s, d.get "state" = .str s ∧ s ≠ "active"
  owned : Owned (d.get "collection_id") (d.get "created_by")
  context : ∃ s, d.get "context" = .str s
  clean : CleanContext M.float M.text (loadedContext M.float (d.get "context"))
  texts : ∀ k ∈ ["name", "title", "description", "origin_root", "created_by"], IsText (d.get k)
  body : BodyKept M objects x last d

end Faithful

/-! ### Reading a row -/

section Read

variable {M : Media} (hf : ∀ t, ReadsFloat M.float (M.float t)) {objects : Objects} {x last : String} {d r : Doc}

theorem loaded_of_contextDict {float : String → Flt} {b : Bool} (hs : d.get "context" = .str s)
    (hc : contextDict float d = (some ctx, b)) : b = true ∧ loadedContext float (d.get "context") = ctx := by
  unfold contextDict at hc
  rw [hs] at hc ⊢
  unfold loadedContext
  dsimp only at hc ⊢
  by_cases he : s = ""
  · rw [if_pos he] at hc ⊢
    cases hc
    exact ⟨rfl, rfl⟩
  · rw [if_neg he] at hc ⊢
    cases hl : Json.loads float s with
    | none =>
      rw [hl] at hc
      cases hc
    | some v =>
      rw [hl] at hc
      cases v <;> cases hc
      exact ⟨rfl, rfl⟩

theorem opened_clean (hS : Served M objects S) (h : CleanSeal M.float M.text v) {parts : Val × Val}
    (ho : openField M.float S.ciphers d v = some parts) (hf : dictOr parts.1 = .ok f) (ht : dictOr parts.2 = .ok t) :
    CleanParts f t := by
  unfold openField at ho
  split at ho
  · rename_i items
    unfold openSealed at ho
    split at ho
    · cases ho
    · obtain ⟨plain, hplain, hopened⟩ := Option.bind_eq_some_iff.mp ho
      cases hb : S.ciphers.openBlob ((d.get "root_id").orElse (d.get "id")) _ (contentKeyScope d)
          ((docOfItems items).get "blob") with
      | error e =>
        rw [hb] at hplain
        cases hplain
      | ok p =>
        rw [hb] at hplain
        cases hplain
        obtain ⟨b, hv, htext⟩ := hS.opens hb
        subst htext
        exact h items b parts f t rfl hv hopened hf ht
  · cases ho

theorem cleanSeal_orElse (h : CleanSeal M.float M.text v) :
    CleanSeal M.float M.text (v.orElse (.dict [])) := by
  unfold Val.orElse
  split_ifs
  · exact h
  · intro items b parts f t hv hb
    cases hv
    cases hb

theorem sealedParts_clean (hS : Served M objects S) (h : CleanContext M.float M.text ctx)
    (hp : sealedParts M.float S.ciphers d ctx = some (f, t)) : CleanParts f t := by
  unfold sealedParts at hp
  split_ifs at hp
  obtain ⟨parts, ho, hparts⟩ := Option.bind_eq_some_iff.mp hp
  split at hparts
  · rename_i f' t' h1 h2
    cases hparts
    exact opened_clean hS (cleanSeal_orElse h.sealed) ho h1 h2
  · cases hparts

theorem restored_clean (h : CleanParts f t) (k : String) :
    (restoreFields d t).get k = d.get k ∨ ((k = "name" ∨ k = "description") ∧ ∃ s, (restoreFields d t).get k = .str s) := by
  obtain ⟨-, -, -, -, hfields⟩ := h
  induction t generalizing d with
  | nil => exact .inl rfl
  | cons e t ih =>
    have hstep : restoreFields d (e :: t) =
        restoreFields (if (d.get e.1).truthy then d else d.set e.1 e.2) t := rfl
    obtain ⟨hname, s, hs⟩ := hfields e List.mem_cons_self
    rw [hstep]
    rcases @ih (if (d.get e.1).truthy then d else d.set e.1 e.2) (fun e' he' => hfields e' (List.mem_cons_of_mem _ he'))
      with hsame | hnew
    · by_cases ht : (d.get e.1).truthy = true
      · rw [if_pos ht] at hsame ⊢
        exact .inl hsame
      · rw [if_neg ht] at hsame ⊢
        by_cases hk : k = e.1
        · subst hk
          refine .inr ⟨hname, s, ?_⟩
          rw [hsame, Doc.get_set_self, hs]
        · rw [Doc.get_set_of_ne _ _ hk] at hsame
          exact .inl hsame
    · exact .inr hnew

/-- The document once its seal is opened: it names the same address, and is clean. -/
structure Unsealed (M : Media) (d u : Doc) : Prop where
  context : ∃ s, u.get "context" = .str s
  keeps : KeepsAddress M.float M.text (loadedContext M.float (d.get "context")) (loadedContext M.float (u.get "context"))
  others : ∀ k, k ≠ "context" → u.get k = d.get k ∨ ((k = "name" ∨ k = "description") ∧ ∃ s, u.get k = .str s)

theorem callerPart_of_get {c c' : Doc} (h : c'.get "caller" = c.get "caller") : callerPart c' = callerPart c := by
  unfold callerPart
  rw [h]

include hf in
theorem unsealed (hS : Served M objects S) (hctx : ∃ s, d.get "context" = .str s)
    (hclean : CleanContext M.float M.text (loadedContext M.float (d.get "context")))
    (hu : unsealContentFields M.float S.ciphers d = .ok u) : Unsealed M d u := by
  obtain ⟨s, hs⟩ := hctx
  rcases unsealContentFields_cases hu with ⟨rfl, -⟩ | ⟨ctx, b, f, t, hc, hparts, hput⟩
  · exact ⟨⟨s, hs⟩, .refl, fun k _ => .inl rfl⟩
  · obtain ⟨rfl, hload⟩ := loaded_of_contextDict hs hc
    rw [hload] at hclean
    have hparts' := sealedParts_clean hS hclean hparts
    have hjson : JsonDoc M.float (setDefaults (ctx.without (· = "sealed")) f) := by
      refine JsonDoc.setDefaults (JsonDoc.without ?_ _) (sealedParts_json hf hparts).1
      rw [← hload]
      exact loadedContext_json hf _
    have hput' := hput
    unfold putContext at hput'
    rw [if_pos rfl] at hput'
    obtain ⟨txt, -, rfl⟩ := Mantle.map_ok hput'
    have hs' := Doc.get_set_self (restoreFields d t) "context" (.str txt)
    obtain ⟨-, hload'⟩ := loaded_of_contextDict hs' (contextDict_putContext hjson hput)
    have hfind : ∀ k, k ≠ "sealed" → (setDefaults (ctx.without (· = "sealed")) f).find? k =
        (ctx.find? k).or (f.find? k) := by
      intro k hk
      rw [find?_setDefaults, Doc.find?_without _ (decide_eq_false hk)]
    refine ⟨⟨txt, hs'⟩, ?_, fun k hk => ?_⟩
    · rw [hload, hload']
      refine ⟨?_, ?_, fun _ => ⟨?_, ?_⟩⟩
      · rw [hfind _ (by decide), hparts'.address, Option.or_none]
      · rw [hfind _ (by decide), hparts'.key, Option.or_none]
      · have hnone : (setDefaults (ctx.without (· = "sealed")) f).get "sealed" = .none := by
          unfold Doc.get
          rw [find?_setDefaults, Doc.find?_without_of _ (decide_eq_true rfl), hparts'.sealed]
          rfl
        rw [hnone]
        exact .none
      · cases hcaller : ctx.find? "caller" with
        | some v =>
          rw [callerPart_of_get (c := ctx)]
          · exact hclean.caller
          · unfold Doc.get
            rw [hfind _ (by decide), hcaller]
            rfl
        | none =>
          rw [callerPart_of_get (c := f)]
          · exact hparts'.caller
          · unfold Doc.get
            rw [hfind _ (by decide), hcaller, Option.none_or]
    · rw [Doc.get_set_of_ne _ _ hk]
      exact restored_clean hparts' k

theorem contentKeyOf_loaded (hs : d.get "context" = .str s) :
    contentKeyOf M.float d = (loadedContext M.float (d.get "context")).get "content_key" := by
  unfold contentKeyOf loadedContext
  rw [hs]
  dsimp only
  by_cases he : s = ""
  · rw [if_pos he, he, loads_empty]
    rfl
  · rw [if_neg he]
    cases Json.loads M.float s with
    | none => rfl
    | some v => cases v <;> rfl

theorem bodyPrincipals_owned (h : Owned (d.get "collection_id") (d.get "created_by")) :
    (bodyPrincipals d).isEmpty = false := by
  have hgrow : ∀ (vs acc : List Val), acc ≠ [] →
      vs.foldl (fun acc v => if acc.any fun w => w.repr == v.repr then acc else acc ++ [v]) acc ≠ [] := by
    intro vs
    induction vs with
    | nil => exact fun _ h => h
    | cons v vs ih =>
      intro acc hacc
      refine ih _ ?_
      dsimp only
      split_ifs
      · exact hacc
      · simp
  have hmem : ∃ w, w ∈ [d.get "content_key_principal", contentKeyScope d, d.get "created_by"].filter Val.truthy := by
    rcases h with ⟨ws, hne, hw⟩ | ⟨u, hne, hu⟩
    · refine ⟨contentKeyScope d, ?_⟩
      have hscope : contentKeyScope d = .str ws := by
        unfold contentKeyScope
        rw [hw, if_pos (by simpa using hne)]
      rw [hscope]
      simp [List.mem_filter, hne]
    · refine ⟨d.get "created_by", ?_⟩
      rw [hu]
      simp [List.mem_filter, hne]
  rw [List.isEmpty_eq_false_iff]
  unfold bodyPrincipals
  obtain ⟨v, vs, hvs⟩ := List.exists_cons_of_ne_nil (List.ne_nil_of_mem hmem.choose_spec)
  rw [hvs]
  refine hgrow vs _ ?_
  simp

/-- **What a strict read of the body gives.** -/
theorem decryptBody_kept (hS : Served M objects S) (howned : Owned (d.get "collection_id") (d.get "created_by"))
    (hctx : ∃ s, d.get "context" = .str s) (h : BodyKept M objects x last d)
    (hr : decryptBody M.float S.ciphers true d = .ok r) :
    r.get "content" = .str last ∧ (r.get "content_encrypted").truthy = false := by
  unfold decryptBody at hr
  cases h with
  | addressed h content encrypted =>
    obtain ⟨ref, key, href, hrefne, -, hkey, -, hblob, hobject⟩ := h
    rw [href, content, Val.truthy_str, Val.truthy_str] at hr
    simp only [hrefne, ne_eq, not_false_eq_true, decide_true, not_true_eq_false, decide_false, Bool.not_false,
      Bool.and_self, if_true, bodyPrincipals_owned howned, Bool.false_eq_true, if_false] at hr
    split at hr
    · rename_i t ht
      cases hr
      obtain ⟨p, -, hp⟩ := List.exists_of_findSome?_eq_some ht
      obtain ⟨openEnvelope, T, hhyd, hopen, hlocal, hstore⟩ := hS.reads
      rw [hhyd] at hp
      obtain ⟨b, hb, hfrom⟩ := getBytesDecrypted_cases hp
      have hlast : M.text b = last := by
        rcases hfrom with ⟨l, hl, hlb⟩ | ⟨o, ho, hob⟩
        · exact hblob b (hlocal l _ b hl hlb)
        · refine hobject b ?_
          rw [← hstore o ho, ← hob]
          congr 1
          obtain ⟨s, hs⟩ := hctx
          have hget : contentKeyOf M.float d = .str key := by
            rw [contentKeyOf_loaded hs]
            exact Doc.get_of_find? hkey
          rw [hget]
          unfold Val.orElse
          split_ifs with hk
          · rfl
          · simp only [Val.truthy_str, ne_eq, decide_not, Bool.not_eq_true', decide_eq_false_iff_not, not_not] at hk
            rw [hk]
            rfl
      have htext : t = last := (hopen _ _ _ _ hb).symm.trans hlast
      refine ⟨?_, ?_⟩
      · rw [Doc.get_set_self, htext]
      · rw [Doc.get_set_of_ne _ _ (by decide)]
        exact encrypted
    · cases hr
  | empty h hlast content encrypted =>
    rw [h.1, encrypted] at hr
    cases hr
    exact ⟨by rw [content, hlast], encrypted⟩
  | encrypted h blob content encrypted text =>
    have hnone : Val.none.truthy = false := rfl
    rw [h.1, hnone, Bool.false_and, if_neg Bool.false_ne_true, if_pos encrypted] at hr
    split at hr
    · rename_i t ht
      cases hr
      obtain ⟨b, hb, htext⟩ := hS.opens ht
      rw [content] at hb
      cases hb
      refine ⟨?_, ?_⟩
      · rw [Doc.get_set_of_ne _ _ (by decide), Doc.get_set_self, ← htext, text]
      · rw [Doc.get_set_self]
        rfl
    · cases hr
    · cases hr

theorem BodyKept.congr (h : BodyKept M objects x last d) (hget : ∀ k ∈ ["content_ref", "content"], u.get k = d.get k)
    (henc : (u.get "content_encrypted").truthy = (d.get "content_encrypted").truthy)
    (hkeeps : KeepsAddress M.float M.text (loadedContext M.float (d.get "context"))
      (loadedContext M.float (u.get "context"))) : BodyKept M objects x last u := by
  have href := hget "content_ref" (by simp)
  have hcontent := hget "content" (by simp)
  have hunaddr : Unaddressed (d.get "content_ref") (loadedContext M.float (d.get "context")) →
      Unaddressed (u.get "content_ref") (loadedContext M.float (u.get "context")) :=
    fun h => ⟨href.trans h.1, (Doc.get_of_sameFind hkeeps.ref).trans h.2⟩
  cases h with
  | addressed h content encrypted =>
    refine .addressed ?_ (hcontent.trans content) (henc.trans encrypted)
    obtain ⟨r, key, hr, hne, hcas, hkey, hrest⟩ := h
    exact ⟨r, key, href.trans hr, hne, hkeeps.ref.trans hcas, hkeeps.key.trans hkey, hrest⟩
  | empty h last content encrypted => exact .empty (hunaddr h) last (hcontent.trans content) (henc.trans encrypted)
  | encrypted h blob content encrypted text =>
    exact .encrypted (hunaddr h) blob (hcontent.trans content) (henc.trans encrypted) text

theorem Unsealed.get (hu : Unsealed M d u) {k : String} (hk : k ∉ ["context", "name", "description"]) :
    u.get k = d.get k := by
  simp only [List.mem_cons, List.not_mem_nil, or_false, not_or] at hk
  rcases hu.others k hk.1 with hsame | ⟨rfl | rfl, -⟩
  · exact hsame
  · exact absurd rfl hk.2.1
  · exact absurd rfl hk.2.2

theorem BodyKept.address (h : BodyKept M objects x last d) :
    Addressed M objects x last (d.get "content_ref") (loadedContext M.float (d.get "context")) ∨
      Unaddressed (d.get "content_ref") (loadedContext M.float (d.get "context")) := by
  cases h with
  | addressed h => exact .inl h
  | empty h => exact .inr h
  | encrypted h => exact .inr h

theorem isText_orElse {w : Val} (hv : IsText v) (hw : IsText w) : IsText (v.orElse w) := by
  unfold Val.orElse
  split_ifs
  · exact hv
  · exact hw

include hf in
/-- **A row that is kept is read with the body written last**, or the read raises. -/
theorem RowKept.read (hS : Served M objects S) (h : RowKept M objects x last d) (hx : x ≠ "") {a : Artifact}
    (ha : fromLatticeDoc S.float S.ciphers S.clock d = .ok a) :
    Member M objects x last a ∧ a.contentRef = d.get "content_ref" ∧
      KeepsAddress M.float M.text (loadedContext M.float (d.get "context")) (loadedContext M.float a.context) := by
  rw [hS.float] at ha
  obtain ⟨r, hr, hofd⟩ := fromLatticeDoc_ok ha
  obtain ⟨raw, hraw⟩ : ∃ raw, d.without (· ∈ latticeInternal) = raw := ⟨_, rfl⟩
  rw [hraw] at hr
  have hget : ∀ k ∉ latticeInternal, raw.get k = d.get k := by
    intro k hk
    rw [← hraw]
    exact Doc.get_without d (by simpa using hk)
  have hctx : ∃ s, raw.get "context" = .str s := by
    rw [hget _ (by decide)]
    exact h.context
  have hbody : BodyKept M objects x last raw := by
    refine h.body.congr (fun k hk => hget k ?_) (by rw [hget _ (by decide)]) ?_
    · simp only [List.mem_cons, List.not_mem_nil, or_false] at hk
      rcases hk with rfl | rfl <;> decide
    · rw [hget _ (by decide)]
      exact .refl
  obtain ⟨u, hu, hd⟩ := Mantle.bind_ok hr
  have hun := unsealed hf hS hctx (by rw [hget _ (by decide)]; exact h.clean) hu
  have hbody' : BodyKept M objects x last u := by
    refine hbody.congr (fun k hk => hun.get ?_) (by rw [hun.get (by decide)]) hun.keeps
    simp only [List.mem_cons, List.not_mem_nil, or_false] at hk
    rcases hk with rfl | rfl <;> decide
  -- a field outside the body, as the entity is built from it
  have hother : ∀ k, k ∉ bodyFields → r.get k = u.get k := fun k hk => Doc.get_of_sameFind (decryptBody_written hd k hk)
  have hsame : ∀ k, k ∉ latticeInternal ++ bodyFields ++ ["context", "name", "description"] → r.get k = d.get k := by
    intro k hk
    simp only [List.mem_append, not_or] at hk
    rw [hother k hk.1.2, hun.get hk.2, hget k hk.1.1]
  have htext : ∀ k ∈ ["name", "title", "description", "origin_root", "created_by"], IsText (r.get k) := by
    intro k hk
    have hdk := h.texts k hk
    simp only [List.mem_cons, List.not_mem_nil, or_false] at hk
    have hout : k ∉ bodyFields ∧ k ∉ latticeInternal ∧ k ≠ "context" := by
      rcases hk with rfl | rfl | rfl | rfl | rfl <;> decide
    rw [hother k hout.1]
    rcases hun.others k hout.2.2 with hs | ⟨-, s, hs⟩
    · rw [hs, hget k hout.2.1]
      exact hdk
    · exact .inr ⟨s, hs⟩
  obtain ⟨hcontent, henc⟩ := decryptBody_kept hS
    (by rw [hun.get (by decide), hun.get (by decide), hget _ (by decide), hget _ (by decide)]; exact h.owned)
    hun.context hbody' hd
  obtain ⟨s, hs⟩ := hun.context
  have hrs : r.get "context" = .str s := (hother _ (by decide)).trans hs
  have hfind : ∀ {k : String} {s : String}, r.get k = .str s → (r.find? k).getD (.str "") = .str s := by
    intro k s hk
    unfold Doc.get at hk
    cases hr : r.find? k with
    | none =>
      rw [hr] at hk
      cases hk
    | some v =>
      rw [hr] at hk
      exact hk
  have hid : r.get "id" = .str x := (hsame _ (by decide)).trans h.id
  have haddress := hbody'.address
  rw [← hother "content_ref" (by decide)] at haddress
  have hplacing := ofDict_placing hofd
  unfold Artifact.ofDict at hofd
  dsimp only at hofd
  by_cases hstate : stateOf r ∉ [stateLive, stateArchived]
  · rw [if_pos hstate] at hofd
    cases hofd
  rw [if_neg hstate] at hofd
  cases hofd
  have href : r.get "content_ref" = d.get "content_ref" := by
    rw [hother _ (by decide), hun.get (by decide), hget _ (by decide)]
  have hkeeps := hun.keeps
  rw [hget _ (by decide), hs, ← hfind hrs] at hkeeps
  refine ⟨⟨⟨?_, ?_, ?_, ⟨s, hfind hrs⟩, ?_, ?_, htext _ (by simp), ?_, htext _ (by simp), henc⟩, hfind hcontent, ?_⟩,
    href, hkeeps⟩
  · simp [hid, Val.orElse, hx]
  · exact hplacing.known
  · show Owned ((r.find? "collection_id").getD (.str "")) (r.get "created_by")
    rcases h.owned with ⟨ws, hws, hhome⟩ | ⟨u, hu, hcreator⟩
    · exact .inl ⟨ws, hws, hfind ((hsame _ (by decide)).trans hhome)⟩
    · exact .inr ⟨u, hu, (hsame _ (by decide)).trans hcreator⟩
  · show CleanContext M.float M.text (loadedContext M.float ((r.find? "context").getD (.str "")))
    rw [hfind hrs, ← hs]
    exact hun.keeps.clean (by rw [hget _ (by decide)]; exact h.clean)
  · exact isText_orElse (htext _ (by simp)) (htext _ (by simp))
  · refine isText_orElse (htext _ (by simp)) ?_
    show IsText (if _ then _ else _)
    split_ifs
    · exact .inl rfl
    · refine .inr ⟨x, ?_⟩
      simp [hid, Val.orElse, hx]
  · show Addressed M objects x last (r.get "content_ref")
      (loadedContext M.float ((r.find? "context").getD (.str ""))) ∨
        Unaddressed (r.get "content_ref") (loadedContext M.float ((r.find? "context").getD (.str "")))
    rw [hfind hrs, ← hs]
    exact haddress

end Read

/-! ### Writing an entity -/

section Write

variable {M : Media} (hf : ∀ t, ReadsFloat M.float (M.float t)) {objects served : Objects} {x last : String}
  {a : Artifact} {p m d : Doc} {S : Serving}

theorem stripNones_text (h : IsText v) : stripNones v = v := by
  rcases h with rfl | ⟨s, rfl⟩ <;> rfl

theorem address_not_sealable {k : String} (hk : k ∈ ["content_cas_ref", "content_key", "sealed"]) :
    k ∉ sealableKeys p ctx := by
  intro h
  have hk' : k ≠ "title" ∧ (k ∈ structuralContextKeys ∨ k = "sealed") := by
    simp only [List.mem_cons, List.not_mem_nil, or_false] at hk
    rcases hk with rfl | rfl | rfl <;> decide
  unfold sealableKeys at h
  split_ifs at h
  · rw [List.mem_filter, List.mem_singleton] at h
    exact hk'.1 h.1
  · rw [List.mem_filter] at h
    have hb := h.2
    rw [Bool.and_eq_true, decide_eq_true_eq, decide_eq_true_eq] at hb
    exact hk'.2.elim hb.1 hb.2

theorem sealedKeys_json {ctx : Doc} (hctx : JsonDoc M.float ctx) :
    JsonDoc M.float ((sealableKeys p ctx).map fun k => (k, ctx.get k)) :=
  @JsonDoc.keys M.float (fun k => ctx.get k) (fun k => hctx.get k) (sealableKeys p ctx) (sealableKeys_nodup hctx.nodup)

theorem find?_sealedKeys (p ctx : Doc) (k : String) :
    Doc.find? ((sealableKeys p ctx).map fun k => (k, ctx.get k)) k =
      if k ∈ sealableKeys p ctx then some (ctx.get k) else none := Doc.find?_keys (fun k => ctx.get k) k _

theorem sealedTops_text (htexts : ∀ k ∈ ["name", "description"], IsText (p.get k)) :
    ∀ k ∈ sealedFields p ctx, (k = "name" ∨ k = "description") ∧ ∃ s, p.get k = .str s := by
  intro k hk
  obtain ⟨hname, htruthy⟩ := mem_sealableDocFields hk
  refine ⟨hname, ?_⟩
  rcases htexts k (by simpa using hname) with hn | hs
  · rw [hn] at htruthy
    cases htruthy
  · exact hs

theorem sealedTops_json {ctx : Doc} (htexts : ∀ k ∈ ["name", "description"], IsText (p.get k)) :
    JsonDoc M.float ((sealedFields p ctx).map fun k => (k, p.get k)) := by
  refine ⟨?_, fun e he => ?_⟩
  · have hmap : ((sealedFields p ctx).map fun k => (k, p.get k)).map Prod.fst = sealedFields p ctx := by
      rw [List.map_map]
      exact List.map_id _
    unfold KeysNodup
    rw [hmap]
    exact sealableDocFields_nodup
  · obtain ⟨k, hk, rfl⟩ := List.mem_map.mp he
    obtain ⟨-, s, hs⟩ := sealedTops_text htexts k hk
    show IsJson M.float (p.get k)
    rw [hs]
    exact isJson_str s

theorem mem_update {e : String × Val} : ∀ {new d : Doc}, e ∈ d.update new → e ∈ d ∨ e ∈ new
  | [], _, h => .inl h
  | x :: new, d, h => by
    have hstep : d.update (x :: new) = (d.set x.1 x.2).update new := rfl
    rw [hstep] at h
    rcases mem_update h with hd | hn
    · rcases Doc.mem_set hd with rfl | hd
      · exact .inr List.mem_cons_self
      · exact .inl hd
    · exact .inr (List.mem_cons_of_mem _ hn)

theorem cleanParts_update {f₀ t₀ : Doc} (hctx : JsonDoc M.float ctx) (hclean : CleanContext M.float M.text ctx)
    (htexts : ∀ k ∈ ["name", "description"], IsText (p.get k)) (h : CleanParts f₀ t₀) :
    CleanParts (f₀.update ((sealableKeys p ctx).map fun k => (k, ctx.get k)))
      (t₀.update ((sealedFields p ctx).map fun k => (k, p.get k))) := by
  have hfind : ∀ k, (f₀.update ((sealableKeys p ctx).map fun k => (k, ctx.get k))).find? k =
      if k ∈ sealableKeys p ctx then some (ctx.get k) else f₀.find? k := by
    intro k
    rw [Doc.find?_update (sealedKeys_json (p := p) hctx).nodup, find?_sealedKeys]
    split_ifs <;> rfl
  refine ⟨?_, ?_, ?_, ?_, fun e he => ?_⟩
  · rw [hfind, if_neg (address_not_sealable (by simp))]
    exact h.address
  · rw [hfind, if_neg (address_not_sealable (by simp))]
    exact h.key
  · rw [hfind, if_neg (address_not_sealable (by simp))]
    exact h.sealed
  · by_cases hmem : "caller" ∈ sealableKeys p ctx
    · rw [callerPart_of_get (c := ctx)]
      · exact hclean.caller
      · exact Doc.get_of_find? (by rw [hfind, if_pos hmem])
    · rw [callerPart_of_get (c := f₀)]
      · exact h.caller
      · exact Doc.get_of_sameFind (by rw [hfind, if_neg hmem])
  · rcases mem_update he with hold | hnew
    · exact h.fields e hold
    · obtain ⟨k, hk, rfl⟩ := List.mem_map.mp hnew
      exact sealedTops_text htexts k hk

theorem CleanParts.empty : CleanParts [] [] := ⟨rfl, rfl, rfl, rfl, fun _ h => (nomatch h)⟩

theorem append_update : ∀ {f d : Doc}, KeysNodup (d ++ f) → d.update f = d ++ f
  | [], d, _ => (List.append_nil d).symm
  | (k, v) :: f, d, h => by
    have hnot : k ∉ d.map Prod.fst := by
      unfold KeysNodup at h
      rw [List.map_append, List.map_cons] at h
      intro hmem
      exact (List.nodup_append.mp h).2.2 k hmem k List.mem_cons_self rfl
    have hset : d.set k v = d ++ [(k, v)] := by
      clear h
      induction d with
      | nil => rfl
      | cons e d ih =>
        rw [List.map_cons, List.mem_cons, not_or] at hnot
        obtain ⟨k', v'⟩ := e
        rw [Doc.set, if_neg fun hk => hnot.1 hk.symm, ih hnot.2]
        rfl
    have hstep : d.update ((k, v) :: f) = (d.set k v).update f := rfl
    rw [hstep, hset, append_update (by rwa [List.append_assoc, List.singleton_append]), List.append_assoc,
      List.singleton_append]

theorem nil_update (h : KeysNodup f) : Doc.update [] f = f := append_update h

include hf in
theorem seals_clean {b : Bool} {principal : Val} {blob : String} (hS : Served M served S) (hctx : JsonDoc M.float ctx)
    (hclean : CleanContext M.float M.text ctx) (htexts : ∀ k ∈ ["name", "description"], IsText (p.get k))
    (h : Seals M.float S.ciphers p m ctx b f t principal blob) :
    CleanSeal M.float M.text (sealValue principal blob) := by
  have hkeys := @sealedKeys_json M p ctx hctx
  have htops := @sealedTops_json M p ctx htexts
  have hmerged : JsonDoc M.float f ∧ JsonDoc M.float t ∧ CleanParts f t := by
    rcases mergedSeal_cases h.merged with ⟨-, hfe, hte⟩ | ⟨parts, f₀, t₀, -, ho, h1, h2, hfe, hte⟩
    · rw [hfe, hte]
      refine ⟨hkeys, htops, ?_⟩
      have hupdate := cleanParts_update hctx hclean htexts CleanParts.empty
      rwa [nil_update hkeys.nodup, nil_update htops.nodup] at hupdate
    · have hget : (clearContext p ctx).get "sealed" = ctx.get "sealed" := by
        refine Doc.get_of_sameFind ?_
        rw [find?_clearContext, if_neg (address_not_sealable (by simp))]
      rw [hget] at ho
      rw [hfe, hte]
      obtain ⟨hj1, hj2⟩ := openField_json hf ho
      exact ⟨(dictOr_json hj1 h1).update hkeys, (dictOr_json hj2 h2).update htops,
        cleanParts_update hctx hclean htexts (opened_clean hS hclean.sealed ho h1 h2)⟩
  obtain ⟨hjf, hjt, hparts⟩ := hmerged
  obtain ⟨text, htext, creator, hblob⟩ := h.sealing
  intro items b' parts f' t' hv hb hopen h1 h2
  cases hv
  obtain rfl : b' = blob := (Val.str.inj hb).symm
  rw [hS.seals hblob, openedPayload_sealPayload hjf hjt htext] at hopen
  cases hopen
  rw [dictOr_toItems] at h1 h2
  cases h1
  cases h2
  exact hparts

/-- The document once it is sealed: it names the same address, and is clean. -/
structure Sealed (M : Media) (p m : Doc) : Prop where
  context : ∃ s, m.get "context" = .str s
  keeps : KeepsAddress M.float M.text (loadedContext M.float (p.get "context")) (loadedContext M.float (m.get "context"))
  others : ∀ k, k ≠ "context" → m.get k = p.get k ∨ ((k = "name" ∨ k = "description") ∧ m.get k = .none)

theorem principal_text (hroot : IsText (p.get "origin_root")) (hkey : p.get "content_key_principal" = .none)
    (hcreator : IsText (p.get "created_by")) (h : contentKeyPrincipal p = .ok v) : ∃ s, v = .str s := by
  have htext : ∀ {w : Val}, IsText w → w.truthy = true → ∃ s, w = .str s := by
    rintro w (rfl | hw) ht
    · cases ht
    · exact hw
  unfold contentKeyPrincipal at h
  dsimp only at h
  rw [hkey] at h
  split_ifs at h with h1 h2
  · cases h
    exact htext (isText_orElse hroot (.inl rfl)) h1
  · cases h
    exact htext hcreator h2

theorem sealValue_json (principal blob : String) : IsJson M.float (sealValue (.str principal) blob) :=
  @isJson_fields M.float [("p", principal), ("blob", blob)] (by simp)

include hf in
theorem sealed_of (hS : Served M served S) (hs : p.get "context" = .str s)
    (hclean : CleanContext M.float M.text (loadedContext M.float (p.get "context")))
    (htexts : ∀ k ∈ ["name", "description", "origin_root", "created_by"], IsText (p.get k))
    (hkey : p.get "content_key_principal" = .none) (hm : sealContentFields M.float S.ciphers p = .ok m) :
    Sealed M p m := by
  rcases sealContentFields_cases hm with ⟨-, rfl⟩ | ⟨_, _, -, -, -, rfl⟩ | ⟨ctx, b, f, t, v, blob, hseals⟩
  · exact ⟨⟨s, hs⟩, .refl, fun _ _ => .inl rfl⟩
  · exact ⟨⟨s, hs⟩, .refl, fun _ _ => .inl rfl⟩
  obtain ⟨rfl, hload⟩ := loaded_of_contextDict hs hseals.context
  have hctx : JsonDoc M.float ctx := hload ▸ loadedContext_json hf _
  rw [hload] at hclean
  have hnames : ∀ k, k ∉ ["name", "description"] → (clearDoc p ctx).get k = p.get k := by
    intro k hk
    refine Doc.get_of_sameFind ?_
    rw [find?_clearDoc, if_neg]
    intro hmem
    exact hk (by simpa using (mem_sealableDocFields hmem).1)
  obtain ⟨principal, rfl⟩ := principal_text (by rw [hnames _ (by decide)]; exact htexts _ (by simp))
    (by rw [hnames _ (by decide)]; exact hkey) (by rw [hnames _ (by decide)]; exact htexts _ (by simp)) hseals.principal
  have hjson : JsonDoc M.float ((clearContext p ctx).set "sealed" (sealValue (.str principal) blob)) :=
    (hctx.without _).set _ (sealValue_json principal blob)
  have hput := hseals.put
  unfold putContext at hput
  rw [if_pos rfl] at hput
  obtain ⟨txt, -, rfl⟩ := Mantle.map_ok hput
  have hs' := Doc.get_set_self (clearDoc p ctx) "context" (.str txt)
  obtain ⟨-, hload'⟩ := loaded_of_contextDict hs' (contextDict_putContext hjson hseals.put)
  have hsame : ∀ k ∈ ["content_cas_ref", "content_key"],
      ((clearContext p ctx).set "sealed" (sealValue (.str principal) blob)).find? k = ctx.find? k := by
    intro k hk
    have hne : k ≠ "sealed" := by
      rintro rfl
      simp at hk
    rw [Doc.find?_set, if_neg hne, find?_clearContext, if_neg (address_not_sealable ?_)]
    simp only [List.mem_cons, List.not_mem_nil, or_false] at hk ⊢
    tauto
  refine ⟨⟨txt, hs'⟩, ?_, fun k hk => ?_⟩
  · rw [hload, hload']
    refine ⟨hsame _ (by simp), hsame _ (by simp), fun _ => ⟨?_, ?_⟩⟩
    · rw [Doc.get_set_self]
      exact seals_clean hf hS hctx hclean (fun k hk => htexts k (by simp only [List.mem_cons] at hk ⊢; tauto)) hseals
    · by_cases hmem : "caller" ∈ sealableKeys p ctx
      · have hnone : ((clearContext p ctx).set "sealed" (sealValue (.str principal) blob)).get "caller" = .none := by
          rw [Doc.get_set_of_ne _ _ (by decide)]
          unfold Doc.get
          rw [find?_clearContext, if_pos hmem]
          rfl
        unfold callerPart
        rw [hnone]
        rfl
      · rw [callerPart_of_get (c := ctx)]
        · exact hclean.caller
        · rw [Doc.get_set_of_ne _ _ (by decide)]
          exact Doc.get_of_sameFind (by rw [find?_clearContext, if_neg hmem])
  · rw [Doc.get_set_of_ne _ _ hk]
    by_cases hmem : k ∈ sealedFields p ctx
    · refine .inr ⟨(mem_sealableDocFields hmem).1, ?_⟩
      unfold Doc.get
      rw [find?_clearDoc, if_pos hmem]
      rfl
    · exact .inl (Doc.get_of_sameFind (by rw [find?_clearDoc, if_neg hmem]))

theorem encryptBody_kept (hS : Served M served S) (hcontent : m.get "content" = .str last) (hplain : (m.get "content_encrypted").truthy = false)
    (haddress : Addressed M objects x last (m.get "content_ref") (loadedContext M.float (m.get "context")) ∨
      Unaddressed (m.get "content_ref") (loadedContext M.float (m.get "context")))
    (h : encryptBody S.ciphers m = .ok d) : BodyKept M objects x last d := by
  have hctx := (encryptBody_written h).get (k := "context") (by decide)
  have href := (encryptBody_written h).get (k := "content_ref") (by decide)
  rw [← hctx, ← href] at haddress
  have hunaddr : (m.get "content_ref").truthy = false →
      Unaddressed (d.get "content_ref") (loadedContext M.float (d.get "context")) := by
    intro hfalse
    rcases haddress with ⟨r, key, hr, hne, -⟩ | hun
    · rw [← href, hr, Val.truthy_str] at hfalse
      simp [hne] at hfalse
    · exact hun
  rcases encryptBody_cases h with ⟨htrue, hd⟩ | ⟨hfalse, hor, hd⟩ | ⟨hfalse, -, v, blob, -, hblob, hd⟩
  · have haddr : Addressed M objects x last (d.get "content_ref") (loadedContext M.float (d.get "context")) := by
      rcases haddress with haddr | ⟨hnone, -⟩
      · exact haddr
      · rw [← href, hnone] at htrue
        cases htrue
    refine .addressed haddr ?_ ?_
    · rw [hd, Doc.get_set_of_ne _ _ (by decide), Doc.get_set_self]
    · rw [hd, Doc.get_set_self]
      rfl
  · have hlast : last = "" := by
      rcases hor with hor | hor
      · rw [hcontent, Val.truthy_str] at hor
        simpa using hor
      · rw [hplain] at hor
        cases hor
    refine .empty (hunaddr hfalse) hlast ?_ ?_
    · rw [hd, hcontent, hlast]
    · rw [hd]
      exact hplain
  · refine .encrypted (hunaddr hfalse) blob ?_ ?_ ?_
    · rw [hd, Doc.get_set_of_ne _ _ (by decide), Doc.get_set_of_ne _ _ (by decide), Doc.get_set_self]
    · rw [hd, Doc.get_set_of_ne _ _ (by decide), Doc.get_set_self]
      rfl
    · rw [hcontent] at hblob
      exact hS.seals hblob

include hf in
theorem Member.put (h : Member M objects x last a) (hS : Served M served S)
    (hd : toLatticeDoc S.float S.ciphers a = .ok d) :
    RowKept M objects x last d ∧ d.get "content_ref" = a.contentRef := by
  rw [hS.float] at hd
  obtain ⟨p, henc, hp⟩ := toLatticeDoc_plain hd
  obtain ⟨m, hm, hbody⟩ := Mantle.bind_ok henc
  obtain ⟨s, hs⟩ := h.context
  have hps : p.get "context" = .str s := by rw [hp.context, hs]; rfl
  have hout : ∀ k ∉ "_type" :: artifactFields, p.get k = .none := by
    intro k hk
    unfold Doc.get
    rw [hp.others k hk]
    rfl
  have hload : loadedContext M.float (p.get "context") = loadedContext M.float a.context := by rw [hps, hs]
  have htexts : ∀ k ∈ ["name", "description", "origin_root", "created_by"], IsText (p.get k) := by
    intro k hk
    simp only [List.mem_cons, List.not_mem_nil, or_false] at hk
    rcases hk with rfl | rfl | rfl | rfl
    · rw [hp.name, stripNones_text h.name]
      exact h.name
    · rw [hp.description, stripNones_text h.description]
      exact h.description
    · rw [hp.originRoot, stripNones_text h.root]
      exact h.root
    · rw [hp.createdBy, stripNones_text h.creator]
      exact h.creator
  have hm' := sealed_of hf hS hps (by rw [hload]; exact h.clean) htexts (hout _ (by decide)) hm
  obtain ⟨s', hs'⟩ := hm'.context
  have hsame : ∀ k ∉ ["context", "name", "description"], m.get k = p.get k := by
    intro k hk
    simp only [List.mem_cons, List.not_mem_nil, or_false, not_or] at hk
    rcases hm'.others k hk.1 with hsame | ⟨rfl | rfl, -⟩
    · exact hsame
    · exact absurd rfl hk.2.1
    · exact absurd rfl hk.2.2
  have hwritten := encryptBody_written hbody
  have href : m.get "content_ref" = a.contentRef := by
    rw [hsame _ (by decide), hp.contentRef]
    rcases h.address with ⟨r, _, hr, -⟩ | ⟨hr, -⟩ <;> rw [hr] <;> rfl
  have haddress : Addressed M objects x last (m.get "content_ref") (loadedContext M.float (m.get "context")) ∨
      Unaddressed (m.get "content_ref") (loadedContext M.float (m.get "context")) := by
    have hkeeps := hm'.keeps
    rw [hload] at hkeeps
    rw [href]
    rcases h.address with ⟨r, key, hr, hne, hcas, hkey, hrest⟩ | ⟨hr, hcas⟩
    · exact .inl ⟨r, key, hr, hne, hkeeps.ref.trans hcas, hkeeps.key.trans hkey, hrest⟩
    · exact .inr ⟨hr, (Doc.get_of_sameFind hkeeps.ref).trans hcas⟩
  refine ⟨⟨?_, ?_, ?_, ⟨s', ?_⟩, ?_, fun k hk => ?_, ?_⟩, (hwritten.get (by decide)).trans href⟩
  · rw [hwritten.get (by decide), hsame _ (by decide), hp.id, h.id]
    rfl
  · refine ⟨a.state, toLatticeDoc_state hd, ?_⟩
    rcases h.state with hs | hs <;> rw [hs] <;> decide
  · have hhome : d.get "collection_id" = stripNones a.collectionId := by
      rw [hwritten.get (by decide), hsame _ (by decide), hp.collectionId]
    have hcreator : d.get "created_by" = stripNones a.createdBy := by
      rw [hwritten.get (by decide), hsame _ (by decide), hp.createdBy]
    rw [hhome, hcreator]
    rcases h.owned with ⟨ws, hne, hw⟩ | ⟨u, hne, hu⟩
    · exact .inl ⟨ws, hne, by rw [hw]; rfl⟩
    · exact .inr ⟨u, hne, by rw [hu]; rfl⟩
  · rw [hwritten.get (by decide), hs']
  · rw [hwritten.get (by decide)]
    exact hm'.keeps.clean (by rw [hload]; exact h.clean)
  · have hk' : k ∉ bodyFields ∧ k ≠ "context" ∧ IsText (p.get k) := by
      simp only [List.mem_cons, List.not_mem_nil, or_false] at hk
      rcases hk with rfl | rfl | rfl | rfl | rfl
      · exact ⟨by decide, by decide, htexts _ (by simp)⟩
      · exact ⟨by decide, by decide, .inl (hout _ (by decide))⟩
      · exact ⟨by decide, by decide, htexts _ (by simp)⟩
      · exact ⟨by decide, by decide, htexts _ (by simp)⟩
      · exact ⟨by decide, by decide, htexts _ (by simp)⟩
    rw [hwritten.get hk'.1]
    rcases hm'.others k hk'.2.1 with hs | ⟨-, hn⟩
    · rw [hs]
      exact hk'.2.2
    · exact .inl hn
  · refine encryptBody_kept hS ?_ ?_ haddress hbody
    · rw [hsame _ (by decide), hp.content, h.content]
      rfl
    · rw [hsame _ (by decide), hp.contentEncrypted, h.encrypted]

theorem RowKept.stored {row : Doc} (h : RowKept M objects x last d)
    (hrow : ∀ k ∉ "parent_id" :: stampKeys, row.get k = (d.get k).norm) :
    RowKept M objects x last row ∧ row.get "content_ref" = d.get "content_ref" := by
  obtain ⟨s, hs⟩ := h.context
  have hctx : row.get "context" = d.get "context" := by
    rw [hrow _ (by decide), hs]
    rfl
  have href : row.get "content_ref" = d.get "content_ref" := by
    rw [hrow _ (by decide)]
    rcases h.body.address with ⟨r, _, hr, -⟩ | ⟨hr, -⟩ <;> rw [hr] <;> rfl
  refine ⟨⟨?_, ?_, ?_, ⟨s, hctx.trans hs⟩, hctx ▸ h.clean, fun k hk => ?_, ?_⟩, href⟩
  · rw [hrow _ (by decide), h.id]
    rfl
  · obtain ⟨st, hst, hne⟩ := h.state
    exact ⟨st, by rw [hrow _ (by decide), hst]; rfl, hne⟩
  · rw [hrow _ (by decide), hrow _ (by decide)]
    rcases h.owned with ⟨ws, hne, hw⟩ | ⟨u, hne, hu⟩
    · exact .inl ⟨ws, hne, by rw [hw]; rfl⟩
    · exact .inr ⟨u, hne, by rw [hu]; rfl⟩
  · have hk' : k ∉ "parent_id" :: stampKeys := by
      simp only [List.mem_cons, List.not_mem_nil, or_false] at hk
      rcases hk with rfl | rfl | rfl | rfl | rfl <;> decide
    rw [hrow k hk']
    rcases h.texts k hk with hn | ⟨t, ht⟩
    · rw [hn]
      exact .inl rfl
    · rw [ht]
      exact .inr ⟨t, rfl⟩
  · refine h.body.congr (fun k hk => ?_) (by rw [hrow _ (by decide), Val.truthy_norm]) (by rw [hctx]; exact .refl)
    simp only [List.mem_cons, List.not_mem_nil, or_false] at hk
    rcases hk with rfl | rfl
    · exact href
    · rw [hrow _ (by decide)]
      rcases h.body with ⟨-, hc, -⟩ | ⟨-, -, hc, -⟩ | ⟨-, b, hc, -, -⟩ <;> rw [hc] <;> rfl

end Write

end Bodies

end Mantle
