import Mantle.Service.Bodies
import Mantle.Service.Create

/-!
# Mantle.Service.Edits — the body an edit leaves

An edit that meets its conditions turns an entity with one body into an entity with the next; a create makes an entity
with its first.
-/

namespace Mantle

open Json Run Tx

namespace Bodies

variable {K : Caller} {c : Artifact × Bool} {context : Option Val} {ctx stored : Doc} {e : Edit}
  {key : String} {ref v : Val}

variable {M : Media} {objects objects' : Objects} {x last content : String} {a b : Artifact} {S : Serving}

/-! ### The object store moves on -/

/-- Where an object is under a content key of the artifact, it was there before or holds the body. -/
def Follows (M : Media) (objects objects' : Objects) (x last : String) : Prop :=
  ∀ key blob, KeyOf x key → objects' key = some blob → objects key = some blob ∨ M.text blob = last

/-- No object of the artifact holds another body. -/
def Found (M : Media) (objects : Objects) (x content : String) : Prop :=
  ∀ key blob, KeyOf x key → objects key = some blob → M.text blob = content

theorem Addressed.follows (h : Addressed M objects x last ref ctx) (hf : Follows M objects objects' x last) :
    Addressed M objects' x last ref ctx := by
  obtain ⟨r, key, hr, hne, hcas, hkey, hk, hblob, hobject⟩ := h
  refine ⟨r, key, hr, hne, hcas, hkey, hk, hblob, fun blob hb => ?_⟩
  rcases hf key blob hk hb with hold | htext
  · exact hobject blob hold
  · exact htext

theorem Member.follows (h : Member M objects x last a) (hf : Follows M objects objects' x last) :
    Member M objects' x last a :=
  ⟨h.toShell, h.content, h.address.imp_left fun ha => ha.follows hf⟩

theorem RowKept.follows {d : Doc} (h : RowKept M objects x last d) (hf : Follows M objects objects' x last) :
    RowKept M objects' x last d := by
  refine ⟨h.id, h.state, h.owned, h.context, h.clean, h.texts, ?_⟩
  cases h.body with
  | addressed h content encrypted => exact .addressed (h.follows hf) content encrypted
  | empty h last content encrypted => exact .empty h last content encrypted
  | encrypted h blob content encrypted text => exact .encrypted h blob content encrypted text

/-! ### Content that replaces what is there -/

theorem contentEdit {β : Type} (content : Option String) (held : Val) (keep : Except PyErr β)
    (write : String → Except PyErr β) {c : β} (h : (match content with
      | some t => if held.eqStr t then keep else write t
      | none => keep) = .ok c) :
    (keep = .ok c ∧ ∀ t, content = some t → held.eqStr t = true) ∨
      ∃ t, content = some t ∧ held.eqStr t ≠ true ∧ write t = .ok c := by
  cases content with
  | none => exact .inl ⟨h, fun t ht => (nomatch ht)⟩
  | some t =>
    dsimp only at h
    split_ifs at h with heq
    · exact .inl ⟨h, fun t' ht => Option.some.inj ht ▸ heq⟩
    · exact .inr ⟨t, rfl, heq, h⟩

theorem eqStr_content {v : Val} (hv : v = .str last) : v.eqStr content = true ↔ content = last := by
  simpa [hv, Val.eqStr] using eq_comm

theorem getD_same {o : Option String} (h : ∀ t, o = some t → t = last) : o.getD last = last := by
  cases o with
  | none => rfl
  | some t => exact h t rfl

/-! ### One address -/

def SameAddress (c c' : Doc) : Prop :=
  c'.find? "content_cas_ref" = c.find? "content_cas_ref" ∧ c'.find? "content_key" = c.find? "content_key"

theorem sameAddress {c c' : Doc} (h : KeepsAddress M.float M.text c c') : SameAddress c c' := ⟨h.ref, h.key⟩

theorem address_same {c c' : Doc} (h : Addressed M objects x last ref c ∨ Unaddressed ref c) (hs : SameAddress c c') :
    Addressed M objects x last ref c' ∨ Unaddressed ref c' := by
  rcases h with ⟨r, key, hr, hne, hcas, hkey, hrest⟩ | hun
  · exact .inl ⟨r, key, hr, hne, hs.1.trans hcas, hs.2.trans hkey, hrest⟩
  · exact .inr ⟨hun.1, (Doc.get_of_sameFind hs.1).trans hun.2⟩

theorem unaddressed_of_none {c : Doc} (h : Addressed M objects x last ref c ∨ Unaddressed ref c)
    (hn : c.get "content_cas_ref" = .none) : Unaddressed ref c := by
  rcases h with ⟨r, key, -, -, hcas, -⟩ | hun
  · rw [Doc.get_of_find? hcas] at hn
    cases hn
  · exact hun

/-! ### New content -/

theorem keyOf_safeContentKey (ctx : Doc) (x : String) : KeyOf x (safeContentKey ctx x) := by
  have hderived : KeyOf x ("artifacts/" ++ x ++ ".content") := by
    refine ⟨"artifacts".toList, ?_⟩
    simp only [String.toList_append]
    simp
  unfold safeContentKey
  dsimp only
  split
  · split_ifs with hempty hclaim
    · exact hderived
    · rcases hclaim with rfl | hsuffix
      · exact hderived
      · unfold KeyOf
        simpa [String.toList_append] using hsuffix
    · exact hderived
  · exact hderived

/-- Every write of the content that returns gives an address. -/
def Stores (S : Serving) (content : String) : Prop :=
  ∀ key ct owner collection creator, S.putBytes key content ct owner collection creator ≠ .ok none

theorem storeContent_ref (hsha : Function.Injective M.sha256) (hS : Served M objects S)
    {context owner collection creator : Val} {ref : Option String}
    (h : S.storeContent x content context owner collection creator = .ok (key, ref)) :
    KeyOf x key ∧ (Stores S content → ref.isSome = true) ∧
      ∀ r, ref = some r → r ≠ "" ∧ ∀ blob, casRefFor M.sha256 blob = r → M.text blob = content := by
  obtain ⟨ref', hput, he⟩ := Mantle.map_ok h
  cases he
  refine ⟨keyOf_safeContentKey _ x, fun hs => ?_, ?_⟩
  · cases ref with
    | none => exact absurd hput (hs _ _ _ _ _)
    | some r => rfl
  · rintro r rfl
    obtain ⟨T, htext, hT⟩ := hS.stores (safeContentKey (loadedContext S.float context) x) content
      (((loadedContext S.float context).get "content_type").orElse (.str "text/plain")) owner collection creator
    rw [hT] at hput
    obtain ⟨⟨ref', object⟩, hstored, href⟩ := Mantle.map_ok hput
    obtain rfl : ref' = some r := href
    obtain ⟨blob, hblob, rfl⟩ := putBytesEncrypted_ref hstored
    refine ⟨fun hempty => ?_, fun blob' hb => ?_⟩
    · have := congrArg String.toList hempty
      simp [casRefFor, String.toList_append] at this
    · have hlist := congrArg String.toList hb
      unfold casRefFor at hlist
      rw [String.toList_append, String.toList_append, List.append_cancel_left_eq] at hlist
      rw [hsha (String.toList_injective hlist)]
      exact htext blob hblob

theorem addressed_recorded {r : String} (hk : KeyOf x key) (hr : r ≠ "")
    (hblob : ∀ blob, casRefFor M.sha256 blob = r → M.text blob = content) (hfound : Found M objects x content)
    (hcas : ctx.find? "content_cas_ref" = some (.str r)) (hkey : ctx.find? "content_key" = some (.str key)) :
    Addressed M objects x content (.str r) ctx :=
  ⟨r, key, rfl, hr, hcas, hkey, hk, hblob, fun blob hb => hfound key blob hk hb⟩

section Entities

variable (hf : ∀ t, ReadsFloat M.float (M.float t)) (hsha : Function.Injective M.sha256) (hS : Served M objects S)
  (hfound : Found M objects' x content)

include hf hS hfound

theorem recorded_reads {s : String} {ref : Option String} (hk : KeyOf x key)
    (href : ∀ r, ref = some r → r ≠ "" ∧ ∀ blob, casRefFor M.sha256 blob = r → M.text blob = content)
    (hclean : CleanContext M.float M.text (loadedContext M.float (.str s)))
    (hv : recordContentAddress S.float (.str s) key ref = .ok v) :
    (∃ t, v = .str t) ∧ CleanContext M.float M.text (loadedContext M.float v) ∧
      (Addressed M objects' x content (optStr ref) (loadedContext M.float v) ∨
        Unaddressed (optStr ref) (loadedContext M.float v)) := by
  rw [hS.float] at hv
  obtain ⟨t, rfl, hkey, hcas, hc⟩ := recordContentAddress_reads M.text hf hv
  refine ⟨⟨t, rfl⟩, hc hclean, ?_⟩
  cases ref with
  | none =>
    refine .inr ⟨rfl, ?_⟩
    unfold Doc.get
    rw [hcas]
    rfl
  | some r =>
    obtain ⟨hne, hblob⟩ := href r rfl
    refine .inl (addressed_recorded hk hne hblob hfound ?_ hkey)
    rw [hcas]
    simp [hne]

theorem readdressed_reads {s : String} {ref : Option String} {ctx : Val} (hk : KeyOf x key)
    (href : ∀ r, ref = some r → r ≠ "" ∧ ∀ blob, casRefFor M.sha256 blob = r → M.text blob = content)
    (hclean : CleanContext M.float M.text (loadedContext M.float (.str s)))
    (hctx : recordContentAddress S.float (.str s) key ref = .ok ctx)
    (hv : readdressed S.float S.sha256 ctx content = .ok v) :
    (∃ t, v = .str t) ∧ CleanContext M.float M.text (loadedContext M.float v) ∧
      (Addressed M objects' x content (optStr ref) (loadedContext M.float v) ∨
        Unaddressed (optStr ref) (loadedContext M.float v)) := by
  obtain ⟨⟨t, rfl⟩, hc, haddress⟩ := recorded_reads hf hS hfound hk href hclean hctx
  rw [hS.float] at hv
  obtain ⟨t', rfl, hkeeps⟩ := readdressed_keepsAddress M.text hf hv
  exact ⟨⟨t', rfl⟩, hkeeps.clean hc, address_same haddress (sameAddress hkeeps)⟩

include hsha

/-- **New content of a member.**  It must not be emptied, or stored without an address, while it has one. -/
theorem replaceContent_member (h : Shell M x a)
    (hplain : Unaddressed a.contentRef (loadedContext M.float a.context) ∨ content ≠ "" ∧ Stores S content)
    (hb : S.replaceContent a content = .ok b) : Member M objects' x content b := by
  obtain ⟨s, hs⟩ := h.context
  have hclean := h.clean
  unfold Serving.replaceContent at hb
  by_cases hc : content = ""
  · have hun : Unaddressed a.contentRef (loadedContext M.float a.context) := hplain.resolve_right fun hp => hp.1 hc
    rw [if_pos hc, hs, hS.float] at hb
    obtain ⟨v, hv, rfl⟩ := Mantle.map_ok hb
    obtain ⟨t, rfl, hkeeps⟩ := readdressed_keepsAddress M.text hf hv
    rw [hs] at hclean hun
    exact ⟨⟨h.id, h.state, h.owned, ⟨t, rfl⟩, hkeeps.clean hclean, h.name, h.description, h.root, h.creator, h.encrypted⟩,
      rfl, .inr ⟨hun.1, (Doc.get_of_sameFind hkeeps.ref).trans hun.2⟩⟩
  · rw [if_neg hc] at hb
    obtain ⟨⟨key, ref⟩, hstored, hb⟩ := Mantle.bind_ok hb
    obtain ⟨ctx, hctx, hb⟩ := Mantle.bind_ok hb
    obtain ⟨v, hv, hb⟩ := Mantle.bind_ok hb
    cases hb
    rw [h.id] at hstored
    obtain ⟨hk, hsome, href⟩ := storeContent_ref hsha hS hstored
    rw [hs] at hctx
    obtain ⟨ht, hclean', hor⟩ := readdressed_reads hf hS hfound hk href (hs ▸ hclean) hctx hv
    refine ⟨⟨h.id, h.state, h.owned, ht, hclean', h.name, h.description, h.root, h.creator, h.encrypted⟩, rfl, ?_⟩
    rcases hor with haddr | hnone
    · obtain ⟨r, _, hr, hne, -⟩ := id haddr
      obtain rfl : ref = some r := by
        cases ref with
        | none => cases hr
        | some r' => exact congrArg some (Val.str.inj hr)
      refine .inl ?_
      show Addressed M objects' x content ((Val.str r).orElse a.contentRef) _
      rw [Val.orElse, if_pos (by simpa using hne)]
      exact haddr
    · obtain rfl : ref = none := by
        cases ref with
        | none => rfl
        | some r => cases hnone.1
      refine .inr ⟨?_, hnone.2⟩
      rcases hplain with hun | ⟨-, hst⟩
      · exact hun.1
      · exact absurd (hsome hst) (by simp)

theorem replaceBody_member (hK : K.serving = S) (h : Shell M x a) (hb : K.replaceBody a content = .ok b) :
    Member M objects' x content b := by
  obtain ⟨s, hs⟩ := h.context
  have horElse : a.context.orElse (.str "") = .str s := by
    rw [hs, Val.orElse]
    split_ifs with ht
    · rfl
    · simpa using ht
  unfold Caller.replaceBody at hb
  rw [horElse, hK] at hb
  obtain ⟨⟨key, ref⟩, hstored, hb⟩ := Mantle.bind_ok hb
  obtain ⟨ctx, hctx, hb⟩ := Mantle.bind_ok hb
  obtain ⟨v, hv, hb⟩ := Mantle.bind_ok hb
  cases hb
  rw [h.id] at hstored
  obtain ⟨hk, -, href⟩ := storeContent_ref hsha hS hstored
  obtain ⟨ht, hclean', hor⟩ := readdressed_reads hf hS hfound hk href (hs ▸ h.clean) hctx hv
  exact ⟨⟨h.id, h.state, h.owned, ht, hclean', h.name, h.description, h.root, h.creator, h.encrypted⟩, rfl, hor⟩

end Entities

/-! ### Fields -/

theorem setField_keeps {P : Artifact → Prop} (given : Option Val) (there : Val) (set : Val → Artifact) (hc : P c.1)
    (hset : ∀ v, given = some v → P (set v)) :
    P (Edit.setField given there set c).1 := by
  unfold Edit.setField
  cases given with
  | none => exact hc
  | some v =>
    dsimp only
    split_ifs
    · exact hc
    · exact hset v rfl

theorem setField_context {given : Option Val} (ht : ∃ s, c.1.context = .str s)
    (hg : ∀ v, given = some v → ∃ s, v = .str s) :
    (Edit.setField given c.1.context (fun v => { c.1 with context := v }) c).1 =
      { c.1 with context := given.getD c.1.context } := by
  unfold Edit.setField
  cases given with
  | none => rfl
  | some v =>
    obtain ⟨s, hs⟩ := ht
    obtain ⟨t, rfl⟩ := hg v rfl
    dsimp only
    split_ifs with heq
    · rw [hs] at heq
      obtain rfl : s = t := by simpa [Val.pyEq, Val.eqStr] using heq
      rw [Option.getD_some, ← hs]
    · rfl

/-- An entity redescribed: it has the content and the reference it had, and a context that keeps an address. -/
structure Redescribed (M : Media) (x : String) (base : Val) (a b : Artifact) : Prop where
  shell : Shell M x b
  content : b.content = a.content
  contentRef : b.contentRef = a.contentRef
  keeps : KeepsAddress M.float M.text (loadedContext M.float base) (loadedContext M.float b.context)

theorem Shell.withContext (h : Shell M x a) (hv : ∃ s, v = .str s)
    (hc : CleanContext M.float M.text (loadedContext M.float v)) : Shell M x { a with context := v } :=
  ⟨h.id, h.state, h.owned, hv, hc, h.name, h.description, h.root, h.creator, h.encrypted⟩

/-- **The fields of an edit** leave the body, and the address of the context that is given. -/
theorem fields_redescribed (hf : ∀ t, ReadsFloat M.float (M.float t)) (hS : Served M objects S) (h : Shell M x a)
    (hctx : ∀ v, context = some v → (∃ s, v = .str s) ∧ CleanContext M.float M.text (loadedContext M.float v))
    (hc : e.fields S.float context a = .ok c) : Redescribed M x (context.getD a.context) a c.1 := by
  rw [hS.float] at hc
  let Named : Artifact → Prop := fun b => Shell M x b ∧ b.content = a.content ∧ b.contentRef = a.contentRef ∧
    b.context = a.context
  have hname : ∀ d : Artifact × Bool, Named d.1 → ∀ v, e.name.map Val.str = some v → Named { d.1 with name := v } := by
    rintro d ⟨hd, hrest⟩ v hv
    obtain ⟨t, -, rfl⟩ := Option.map_eq_some_iff.mp hv
    exact ⟨⟨hd.id, hd.state, hd.owned, hd.context, hd.clean, .inr ⟨t, rfl⟩, hd.description, hd.root, hd.creator,
      hd.encrypted⟩, hrest⟩
  have hdesc : ∀ d : Artifact × Bool, Named d.1 → ∀ v, e.description.map Val.str = some v →
      Named { d.1 with description := v } := by
    rintro d ⟨hd, hrest⟩ v hv
    obtain ⟨t, -, rfl⟩ := Option.map_eq_some_iff.mp hv
    exact ⟨⟨hd.id, hd.state, hd.owned, hd.context, hd.clean, hd.name, .inr ⟨t, rfl⟩, hd.root, hd.creator,
      hd.encrypted⟩, hrest⟩
  have hset : ∀ d : Artifact × Bool, Named d.1 → Redescribed M x (context.getD a.context) a
      (Edit.setField context d.1.context (fun v => { d.1 with context := v }) d).1 := by
    rintro d ⟨hd, hcontent, href, hsame⟩
    rw [setField_context hd.context fun v hv => (hctx v hv).1]
    refine ⟨?_, hcontent, href, ?_⟩
    · cases hcontext : context with
      | none => exact hd
      | some v => exact hd.withContext (hctx v hcontext).1 (hctx v hcontext).2
    · show KeepsAddress _ _ (loadedContext M.float (context.getD a.context))
        (loadedContext M.float (context.getD d.1.context))
      rw [hsame]
      exact .refl
  have h₁ : Named (Edit.setField (e.name.map .str) a.name (fun v => { a with name := v }) (a, false)).1 :=
    setField_keeps _ _ _ ⟨h, rfl, rfl, rfl⟩ (hname (a, false) ⟨h, rfl, rfl, rfl⟩)
  have h₂ := setField_keeps (P := Named) _ (Edit.setField (e.name.map .str) a.name
    (fun v => { a with name := v }) (a, false)).1.description _ h₁ (hdesc _ h₁)
  have h₃ := hset _ h₂
  unfold Edit.fields at hc
  dsimp only at hc
  revert hc h₃
  generalize Edit.setField context _ _ _ = d
  intro hc h₃
  cases hct : e.contentType with
  | none =>
    rw [hct] at hc
    cases hc
    exact h₃
  | some t =>
    rw [hct] at hc
    obtain ⟨synced, hsync, rfl⟩ := Mantle.map_ok hc
    obtain ⟨s, hs⟩ := h₃.shell.context
    rw [hs] at hsync
    obtain ⟨u, rfl, hkeeps⟩ := withContentType_keepsAddress M.text hf hsync
    rw [← hs] at hkeeps
    have h₄ : Redescribed M x (context.getD a.context) a { d.1 with context := .str u } :=
      ⟨h₃.shell.withContext ⟨u, rfl⟩ (hkeeps.clean h₃.shell.clean), h₃.content, h₃.contentRef, h₃.keeps.trans hkeeps⟩
    have h₅ := setField_keeps (P := Redescribed M x (context.getD a.context) a) (some (.str u)) d.1.context
      (fun v => { d.1 with context := v }) h₃ (by
        intro v hv
        cases hv
        exact h₄)
    refine setField_keeps (P := Redescribed M x (context.getD a.context) a) _ _ _ h₅ ?_
    rintro v -
    obtain ⟨hd, hcontent, href, hk⟩ := h₅
    exact ⟨⟨hd.id, hd.state, hd.owned, hd.context, hd.clean, hd.name, hd.description, hd.root, hd.creator,
      hd.encrypted⟩, hcontent, href, hk⟩

/-! ### Edits of a member -/

/-- A context an edit sends has no seal, and keeps the address or comes with content that gets a new one; a body that
has an address is not emptied, nor replaced without a new one; and the object store then has the content. -/
structure EditClear (M : Media) (objects' : Objects) (x last : String) (S : Serving) (stored : Doc) (e : Edit) :
    Prop where
  caller : ∀ c, e.callerContext = some c → IsJson M.float c ∧ NoSeal (parseContext M.float c)
  context : e.callerContext = none → ∀ c, e.context = some c → ∃ s, c = .str s ∧
    NoSeal (loadedContext M.float c) ∧ (SameAddress stored (loadedContext M.float c) ∨
      ∃ t, e.content = some t ∧ t ≠ last ∧ t ≠ "" ∧ Stores S t)
  content : ∀ t, e.content = some t → t ≠ last → stored.get "content_cas_ref" = .none ∨ t ≠ "" ∧ Stores S t
  found : ∀ t, e.content = some t → Found M objects' x t

section Apply

variable (hf : ∀ t, ReadsFloat M.float (M.float t)) (hsha : Function.Injective M.sha256) (hS : Served M objects S)

include hf hS

theorem editContext_kept (h : Shell M x a) (hsame : SameAddress stored (loadedContext M.float a.context))
    (hclear : EditClear M objects' x last S stored e) (hc : S.editContext e a = .ok context) :
    (∀ v, context = some v → (∃ s, v = .str s) ∧ CleanContext M.float M.text (loadedContext M.float v)) ∧
      (SameAddress stored (loadedContext M.float (context.getD a.context)) ∨
        ∃ t, e.content = some t ∧ t ≠ last ∧ t ≠ "" ∧ Stores S t) := by
  obtain ⟨s, hs⟩ := h.context
  unfold Serving.editContext at hc
  cases hcaller : e.callerContext with
  | some c =>
    rw [hcaller, hS.float] at hc
    obtain ⟨t, ht, rfl⟩ := Mantle.map_ok hc
    have hmerge : mergeUpdate M.float (.str s) c = .ok (.str t) := by
      unfold mergeUpdate
      rw [← hs, ht]
      rfl
    obtain ⟨hjson, hseal⟩ := hclear.caller c hcaller
    obtain ⟨u, hu, hkeeps⟩ := mergeUpdate_keepsAddress M.text hf hjson hseal hmerge
    rw [← hs] at hkeeps
    refine ⟨fun v hv => ?_, .inl ⟨hkeeps.ref.trans hsame.1, hkeeps.key.trans hsame.2⟩⟩
    cases hv
    exact ⟨⟨t, rfl⟩, hkeeps.clean h.clean⟩
  | none =>
    cases hcontext : e.context with
    | none =>
      rw [hcaller, hcontext] at hc
      cases hc
      exact ⟨fun v hv => (nomatch hv), .inl hsame⟩
    | some c =>
      rw [hcaller, hcontext, hS.float] at hc
      obtain ⟨v, hv, rfl⟩ := Mantle.map_ok hc
      obtain ⟨t, rfl, hseal, hor⟩ := hclear.context hcaller c hcontext
      obtain ⟨u, rfl, hkeeps⟩ := normalised_keepsAddress M.text hf hv
      refine ⟨fun w hw => ?_, hor.imp_left fun hs => ⟨hkeeps.ref.trans hs.1, hkeeps.key.trans hs.2⟩⟩
      cases hw
      exact ⟨⟨u, rfl⟩, hkeeps.clean hseal.clean⟩

include hsha

/-- **An edit of the live version**: the entity has the body the edit names, or the one it had. -/
theorem applyEdit_member (h : Member M objects x last a)
    (hstored : Addressed M objects x last a.contentRef stored ∨ Unaddressed a.contentRef stored)
    (hsame : SameAddress stored (loadedContext M.float a.context)) (hclear : EditClear M objects' x last S stored e)
    (hfollow : Follows M objects objects' x (e.content.getD last)) (hc : S.applyEdit e a = .ok c) :
    Member M objects' x (e.content.getD last) c.1 ∧ (c.2 = false → ∀ t, e.content = some t → t = last) := by
  obtain ⟨context, hcontext, hc⟩ := Mantle.bind_ok hc
  obtain ⟨d, hd, hc⟩ := Mantle.bind_ok hc
  obtain ⟨hctx, hor⟩ := editContext_kept hf hS h.toShell hsame hclear hcontext
  have hred := fields_redescribed hf hS h.toShell hctx hd
  -- the address stands unless new content gets one
  have haddress : SameAddress stored (loadedContext M.float (context.getD a.context)) →
      Addressed M objects x last d.1.contentRef (loadedContext M.float d.1.context) ∨
        Unaddressed d.1.contentRef (loadedContext M.float d.1.context) := by
    intro hs
    rw [hred.contentRef]
    exact address_same (address_same hstored hs) (sameAddress hred.keeps)
  have hcontent := hred.content.trans h.content
  rcases contentEdit e.content d.1.content (.ok d) (fun t => (S.replaceContent d.1 t).map fun b => (b, true)) hc with
    ⟨hc, heq⟩ | ⟨t, ht, heq, hc⟩
  · cases hc
    have hlast : ∀ t, e.content = some t → t = last := fun t ht => (eqStr_content hcontent).mp (heq t ht)
    have hs := hor.resolve_right fun ⟨t, ht, hne, _⟩ => hne (hlast t ht)
    rw [getD_same hlast] at hfollow ⊢
    exact ⟨Member.follows ⟨hred.shell, hcontent, haddress hs⟩ hfollow, fun _ => hlast⟩
  · have hne : t ≠ last := fun he => heq ((eqStr_content hcontent).mpr he)
    obtain ⟨b, hb, rfl⟩ := Mantle.map_ok hc
    rw [ht, Option.getD_some]
    refine ⟨replaceContent_member hf hsha hS (hclear.found t ht) hred.shell ?_ hb, fun hfalse => (nomatch hfalse)⟩
    rcases hclear.content t ht hne with hnone | hnew
    · rcases hor with hs | ⟨t', ht', -, hnew⟩
      · refine .inl (unaddressed_of_none (haddress hs) ?_)
        rw [Doc.get_of_sameFind hred.keeps.ref, Doc.get_of_sameFind hs.1]
        exact hnone
      · rw [ht] at ht'
        cases ht'
        exact .inr hnew
    · exact .inr hnew

theorem overwritten_member (hK : K.serving = S) {w : IdentityWrite} (h : Member M objects x last a)
    (hstored : Addressed M objects x last a.contentRef stored ∨ Unaddressed a.contentRef stored)
    (hsame : SameAddress stored (loadedContext M.float a.context))
    (hclear : EditClear M objects' x last S stored { callerContext := w.context, content := w.content })
    (hfollow : Follows M objects objects' x (w.content.getD last)) (hb : K.overwritten w a = .ok b) :
    Member M objects' x (w.content.getD last) b := by
  obtain ⟨s, hs⟩ := h.context
  obtain ⟨ctx, hctx, hb⟩ := Mantle.bind_ok hb
  obtain ⟨c, hc, hb⟩ := Mantle.bind_ok hb
  have hkeeps : (∃ t, ctx = .str t) ∧ KeepsAddress M.float M.text (loadedContext M.float a.context)
      (loadedContext M.float ctx) := by
    unfold Caller.overwrittenContext at hctx
    rw [hK, hS.float] at hctx
    obtain ⟨v, hv, hctx⟩ := Mantle.bind_ok hctx
    have hmerged : (∃ t, v = .str t) ∧ KeepsAddress M.float M.text (loadedContext M.float a.context)
        (loadedContext M.float v) := by
      cases hw : w.context with
      | none =>
        rw [hw] at hv
        cases hv
        exact ⟨⟨s, hs⟩, .refl⟩
      | some u =>
        rw [hw, Option.map_some, Option.getD_some, hs] at hv
        obtain ⟨hjson, hseal⟩ := hclear.caller u hw
        obtain ⟨t, rfl, hk⟩ := mergeUpdate_keepsAddress M.text hf hjson hseal hv
        exact ⟨⟨t, rfl⟩, hs ▸ hk⟩
    obtain ⟨⟨t, rfl⟩, hk⟩ := hmerged
    cases hct : w.contentType with
    | none =>
      rw [hct] at hctx
      cases hctx
      exact ⟨⟨t, rfl⟩, hk⟩
    | some ct =>
      rw [hct, Option.map_some, Option.getD_some] at hctx
      obtain ⟨t', rfl, hk'⟩ := withContentType_keepsAddress M.text hf hctx
      exact ⟨⟨t', rfl⟩, hk.trans hk'⟩
  have hshell : Shell M x { a with context := ctx } := h.toShell.withContext hkeeps.1 (hkeeps.2.clean h.clean)
  have haddress := address_same (address_same hstored hsame) (sameAddress hkeeps.2)
  have hmember : Member M objects' x (w.content.getD last) c := by
    rcases contentEdit (β := Artifact) w.content a.content (.ok { a with context := ctx })
      (K.serving.replaceContent { a with context := ctx }) hc with ⟨hc, heq⟩ | ⟨t, ht, heq, hc⟩
    · cases hc
      rw [getD_same fun t ht => (eqStr_content h.content).mp (heq t ht)] at hfollow ⊢
      exact Member.follows ⟨hshell, h.content, haddress⟩ hfollow
    · rw [hK] at hc
      rw [ht, Option.getD_some]
      refine replaceContent_member hf hsha hS (hclear.found t ht) hshell ?_ hc
      rcases hclear.content t ht (fun he => heq ((eqStr_content h.content).mpr he)) with hnone | hnew
      · refine .inl (unaddressed_of_none haddress ?_)
        rw [Doc.get_of_sameFind hkeeps.2.ref, Doc.get_of_sameFind hsame.1]
        exact hnone
      · exact .inr hnew
  cases hb
  refine ⟨⟨hmember.id, hmember.state, hmember.owned, hmember.context, hmember.clean, ?_, ?_, hmember.root, hmember.creator,
    hmember.encrypted⟩, hmember.content, hmember.address⟩
  · cases w.name with
    | none => exact hmember.name
    | some n => exact .inr ⟨n, rfl⟩
  · cases w.description with
    | none => exact hmember.description
    | some n => exact .inr ⟨n, rfl⟩

end Apply

/-! ### Edits of a top-level artifact -/

/-- A context the edit sends has no seal, and one that this process sends keeps the address and comes without new
content. -/
structure TopClear (M : Media) (objects' : Objects) (x last : String) (stored : Doc) (e : Edit) : Prop where
  caller : ∀ c, e.callerContext = some c → IsJson M.float c ∧ NoSeal (parseContext M.float c)
  context : e.callerContext = none → ∀ c, e.context = some c → (∃ s, c = .str s) ∧ NoSeal (loadedContext M.float c) ∧
    SameAddress stored (loadedContext M.float c) ∧ ∀ t, e.content = some t → t = last
  found : ∀ t, e.content = some t → Found M objects' x t

section Top

variable (hf : ∀ t, ReadsFloat M.float (M.float t)) (hsha : Function.Injective M.sha256) (hS : Served M objects S)
  {K : Caller} (hK : K.serving = S) {e : Edit} {stored : Doc}

include hf hS hK

theorem workspaceUpdate_kept (hclear : TopClear M objects' x last stored e) (h : Member M objects' x content a)
    (hstored : (∀ t, e.content = some t → t = last) →
      Addressed M objects' x content a.contentRef stored ∨ Unaddressed a.contentRef stored)
    (hv : K.workspaceUpdate e a = .ok (some v)) :
    (∃ s, v = .str s) ∧ CleanContext M.float M.text (loadedContext M.float v) ∧
      (Addressed M objects' x content a.contentRef (loadedContext M.float v) ∨
        Unaddressed a.contentRef (loadedContext M.float v)) := by
  obtain ⟨s, hs⟩ := h.context
  unfold Caller.workspaceUpdate at hv
  rw [hK, hS.float] at hv
  obtain ⟨context, hcontext, hv⟩ := Mantle.bind_ok hv
  have hasked : ∀ u, context = some u → (∃ s, u = .str s) ∧ CleanContext M.float M.text (loadedContext M.float u) ∧
      (Addressed M objects' x content a.contentRef (loadedContext M.float u) ∨
        Unaddressed a.contentRef (loadedContext M.float u)) := by
    rintro u rfl
    cases hcaller : e.callerContext with
    | some c =>
      rw [hcaller, Option.map_some, Option.getD_some, hs] at hcontext
      obtain ⟨u', hmerge, he⟩ := Mantle.map_ok hcontext
      cases he
      obtain ⟨hjson, hseal⟩ := hclear.caller c hcaller
      obtain ⟨t, rfl, hkeeps⟩ := mergeUpdate_keepsAddress M.text hf hjson hseal hmerge
      rw [← hs] at hkeeps
      exact ⟨⟨t, rfl⟩, hkeeps.clean h.clean, address_same h.address (sameAddress hkeeps)⟩
    | none =>
      rw [hcaller, Option.map_none, Option.getD_none] at hcontext
      obtain ⟨htext, hseal, hsame, hlast⟩ := hclear.context hcaller u (Except.ok.inj hcontext)
      exact ⟨htext, hseal.clean, address_same (hstored hlast) hsame⟩
  cases context with
  | none =>
    cases e.contentType <;> cases hv
  | some u =>
    obtain ⟨⟨t, rfl⟩, hclean, haddress⟩ := hasked u rfl
    cases hct : e.contentType with
    | none =>
      rw [hct] at hv
      cases hv
      exact ⟨⟨t, rfl⟩, hclean, haddress⟩
    | some ct =>
      rw [hct] at hv
      obtain ⟨w, hw, he⟩ := Mantle.map_ok hv
      cases he
      obtain ⟨t', rfl, hkeeps⟩ := withContentType_keepsAddress M.text hf hw
      exact ⟨⟨t', rfl⟩, hkeeps.clean hclean, address_same haddress (sameAddress hkeeps)⟩

include hsha

theorem editedWorkspace_member {c : Artifact × Bool} (h : Member M objects x last a)
    (hfound : ∀ t, e.content = some t → Found M objects' x t)
    (hfollow : Follows M objects objects' x (e.content.getD last)) (hc : K.editedWorkspace e a = .ok c) :
    Member M objects' x (e.content.getD last) c.1 ∧
      ((∀ t, e.content = some t → t = last) → c.1.contentRef = a.contentRef) ∧
      (c.2 = false → ∀ t, e.content = some t → t = last) := by
  obtain ⟨d, hd, hc⟩ := Mantle.bind_ok hc
  rw [hK] at hd
  have hnone : ∀ v, (none : Option Val) = some v → (∃ s, v = .str s) ∧
      CleanContext M.float M.text (loadedContext M.float v) := fun v hv => (nomatch hv)
  have hred := fields_redescribed hf hS h.toShell hnone hd
  have haddress : Addressed M objects x last d.1.contentRef (loadedContext M.float d.1.context) ∨
      Unaddressed d.1.contentRef (loadedContext M.float d.1.context) := by
    rw [hred.contentRef]
    exact address_same h.address (sameAddress hred.keeps)
  have hcontent := hred.content.trans h.content
  rcases contentEdit e.content d.1.content (.ok d) (fun t => (K.replaceBody d.1 t).map fun b => (b, true)) hc with
    ⟨hc, heq⟩ | ⟨t, ht, hne, hc⟩
  · cases hc
    have hlast : ∀ t, e.content = some t → t = last := fun t ht => (eqStr_content hcontent).mp (heq t ht)
    rw [getD_same hlast] at hfollow ⊢
    exact ⟨Member.follows ⟨hred.shell, hcontent, haddress⟩ hfollow, fun _ => hred.contentRef, fun _ => hlast⟩
  · obtain ⟨b, hb, rfl⟩ := Mantle.map_ok hc
    rw [ht, Option.getD_some]
    exact ⟨replaceBody_member hf hsha hS (hfound t ht) hK hred.shell hb,
      fun hl => absurd ((eqStr_content hcontent).mpr (hl t rfl)) hne, fun hfalse => (nomatch hfalse)⟩

omit hf hsha hS hK in
theorem rewritten_member {text time : Val} (h : Member M objects x content a)
    (hjson : JsonDoc M.float (loadedContext M.float v)) (hclean : CleanContext M.float M.text (loadedContext M.float v))
    (haddress : Addressed M objects x content a.contentRef (loadedContext M.float v) ∨
      Unaddressed a.contentRef (loadedContext M.float v))
    (hctx : ctx = loadedContext M.float v ∨
      ctx = (loadedContext M.float v).set "collections" (.list [])) (htext : withClientKeysText ctx ctx = .ok text) :
    Member M objects x content { a with context := text, modifiedTime := time } := by
  have hkept : JsonDoc M.float ctx ∧ KeepsAddress M.float M.text (loadedContext M.float v) ctx := by
    rcases hctx with rfl | rfl
    · exact ⟨hjson, .refl⟩
    · refine ⟨hjson.set _ (isJson_list fun v hv => absurd hv List.not_mem_nil), .of_find? fun k hk => ?_⟩
      rw [Doc.find?_set, if_neg]
      rintro rfl
      simp at hk
  obtain ⟨t, rfl, -, hload⟩ := withClientKeysText_reads hkept.1 hkept.1 htext
  have hkeeps := hkept.2.trans (@keepsAddress_withClientKeys _ M.text _ _ hkept.1.nodup fun hc => hc.sealed)
  rw [← hload] at hkeeps
  exact ⟨⟨h.id, h.state, h.owned, ⟨t, rfl⟩, hkeeps.clean hclean, h.name, h.description, h.root, h.creator, h.encrypted⟩,
    h.content, address_same haddress (sameAddress hkeeps)⟩

end Top

/-! ### An edit keeps the id -/

section Ids

variable {K : Caller} {e : Edit} {c : Artifact × Bool}

theorem setField_id {given : Option Val} {there : Val} {set : Val → Artifact} {d : Artifact × Bool} (hd : d.1.id = a.id)
    (hset : ∀ v, (set v).id = d.1.id) : (Edit.setField given there set d).1.id = a.id :=
  setField_keeps (P := fun b => b.id = a.id) _ _ _ hd fun v _ => (hset v).trans hd

theorem fields_id {float : String → Flt} (h : e.fields float context a = .ok c) :
    c.1.id = a.id := by
  unfold Edit.fields at h
  dsimp only at h
  have h₁ : (Edit.setField (e.name.map .str) a.name (fun v => { a with name := v }) (a, false)).1.id = a.id :=
    setField_id rfl fun _ => rfl
  generalize Edit.setField (e.name.map .str) a.name _ (a, false) = d₁ at h h₁
  have h₂ : (Edit.setField (e.description.map .str) d₁.1.description (fun v => { d₁.1 with description := v }) d₁).1.id =
      a.id := setField_id h₁ fun _ => rfl
  generalize Edit.setField (e.description.map .str) _ _ d₁ = d₂ at h h₂
  have h₃ : (Edit.setField context d₂.1.context (fun v => { d₂.1 with context := v }) d₂).1.id = a.id :=
    setField_id h₂ fun _ => rfl
  generalize Edit.setField context _ _ d₂ = d₃ at h h₃
  cases hct : e.contentType with
  | none =>
    rw [hct] at h
    cases h
    exact h₃
  | some t =>
    rw [hct] at h
    obtain ⟨synced, -, rfl⟩ := Mantle.map_ok h
    exact setField_id (setField_id h₃ fun _ => rfl) fun _ => rfl

theorem replaceContent_id (h : S.replaceContent a content = .ok b) : b.id = a.id := by
  unfold Serving.replaceContent at h
  split_ifs at h
  · obtain ⟨ctx, -, rfl⟩ := Mantle.map_ok h
    rfl
  · obtain ⟨_, -, h⟩ := Mantle.bind_ok h
    obtain ⟨_, -, h⟩ := Mantle.bind_ok h
    obtain ⟨_, -, h⟩ := Mantle.bind_ok h
    cases h
    rfl

theorem applyEdit_id (h : S.applyEdit e a = .ok c) : c.1.id = a.id := by
  obtain ⟨context, -, h⟩ := Mantle.bind_ok h
  obtain ⟨d, hd, h⟩ := Mantle.bind_ok h
  have hid := fields_id hd
  rcases contentEdit e.content d.1.content (.ok d) (fun t => (S.replaceContent d.1 t).map fun b => (b, true)) h with
    ⟨h, -⟩ | ⟨t, -, -, h⟩
  · cases h
    exact hid
  · obtain ⟨b, hb, rfl⟩ := Mantle.map_ok h
    exact (replaceContent_id hb).trans hid

theorem editedWorkspace_id (h : K.editedWorkspace e a = .ok c) : c.1.id = a.id := by
  obtain ⟨d, hd, h⟩ := Mantle.bind_ok h
  have hid := fields_id hd
  rcases contentEdit e.content d.1.content (.ok d) (fun t => (K.replaceBody d.1 t).map fun b => (b, true)) h with
    ⟨h, -⟩ | ⟨t, -, -, h⟩
  · cases h
    exact hid
  · obtain ⟨b, hb, rfl⟩ := Mantle.map_ok h
    obtain ⟨_, -, hb⟩ := Mantle.bind_ok hb
    obtain ⟨_, -, hb⟩ := Mantle.bind_ok hb
    obtain ⟨_, -, hb⟩ := Mantle.bind_ok hb
    cases hb
    exact hid

theorem overwritten_id {w : IdentityWrite} (h : K.overwritten w a = .ok b) : b.id = a.id := by
  obtain ⟨ctx, -, h⟩ := Mantle.bind_ok h
  obtain ⟨d, hd, h⟩ := Mantle.bind_ok h
  have hid : d.id = a.id := by
    obtain ⟨a', ha'⟩ : ∃ a', a' = { a with context := ctx } := ⟨_, rfl⟩
    have hsame : a'.id = a.id := by rw [ha']
    rw [← ha'] at hd
    rcases contentEdit w.content a'.content (.ok a') (K.serving.replaceContent a') hd with ⟨hd, -⟩ | ⟨t, -, -, hd⟩
    · cases hd
      exact hsame
    · exact (replaceContent_id hd).trans hsame
  cases h
  exact hid

end Ids

/-! ### A new member -/

theorem isText_optStr (s : Option String) : IsText (optStr s) := by
  cases s with
  | none => exact .inl rfl
  | some s => exact .inr ⟨s, rfl⟩

/-- The context a create stores has no seal, and names an address only where content is stored; its container's origin
root is a text; and the object store then has the content. -/
structure CreationClear (M : Media) (objects' : Objects) (x : String) (K : Caller) (db : Store) (workspaceId : String)
    (c : Creation) : Prop where
  context : ∀ v, K.createdContext c = .ok v → (∃ s, v = .str s) ∧ NoSeal (loadedContext M.float v) ∧
    (c.content = "" → (loadedContext M.float v).get "content_cas_ref" = .none)
  root : IsText (((docOf db workspaceId).getD []).get "origin_root")
  found : Found M objects' x c.content

theorem inheritOriginRoot_text {db : Store} (h : IsText a.originRoot) (hid : a.id = .str x)
    (hroot : IsText (((docOf db a.collectionId.pyStr).getD []).get "origin_root")) :
    ∃ v, IsText v ∧ inheritOriginRoot db a = { a with originRoot := v } := by
  unfold inheritOriginRoot
  dsimp only
  split_ifs
  · exact ⟨_, h, rfl⟩
  · exact ⟨_, .inr ⟨x, hid⟩, rfl⟩
  · exact ⟨_, hroot, rfl⟩
  · split
    · exact ⟨_, .inr ⟨_, rfl⟩, rfl⟩
    · exact ⟨_, h, rfl⟩

theorem newMember_member (hf : ∀ t, ReadsFloat M.float (M.float t)) (hsha : Function.Injective M.sha256)
    (hS : Served M objects S) (hK : K.serving = S) {db : Store} {workspaceId : String} {c : Creation}
    (hws : workspaceId ≠ "") (hclear : CreationClear M objects' x K db workspaceId c) {context : Val}
    {placed : Val × Option String} (hctx : K.createdContext c = .ok context)
    (hplaced : K.createdContent workspaceId x context c.content = .ok placed) :
    Member M objects' x c.content (inheritOriginRoot db (K.newMember workspaceId x c placed.1 placed.2)) := by
  obtain ⟨⟨s, rfl⟩, hseal, hnone⟩ := hclear.context context hctx
  have hbody : (∃ t, placed.1 = .str t) ∧ CleanContext M.float M.text (loadedContext M.float placed.1) ∧
      (Addressed M objects' x c.content (optStr placed.2) (loadedContext M.float placed.1) ∨
        Unaddressed (optStr placed.2) (loadedContext M.float placed.1)) := by
    unfold Caller.createdContent at hplaced
    by_cases hc : c.content = ""
    · rw [if_pos hc] at hplaced
      cases hplaced
      exact ⟨⟨s, rfl⟩, hseal.clean, .inr ⟨rfl, hnone hc⟩⟩
    · rw [if_neg hc, hK] at hplaced
      obtain ⟨⟨key, ref⟩, hstored, hplaced⟩ := Mantle.bind_ok hplaced
      obtain ⟨v, hv, hplaced⟩ := Mantle.bind_ok hplaced
      cases hplaced
      obtain ⟨hk, -, href⟩ := storeContent_ref hsha hS hstored
      exact recorded_reads hf hS hclear.found hk href hseal.clean hv
  obtain ⟨r, hr, hroot⟩ := @inheritOriginRoot_text x (K.newMember workspaceId x c placed.1 placed.2) db
    (by
      show IsText (if workspaceId = "" then _ else _)
      rw [if_neg hws]
      exact .inl rfl) rfl hclear.root
  rw [hroot]
  exact ⟨⟨rfl, .inl rfl, .inl ⟨workspaceId, hws, rfl⟩, hbody.1, hbody.2.1, isText_optStr _, isText_optStr _, hr,
    .inr ⟨_, rfl⟩, rfl⟩, rfl, hbody.2.2⟩

end Bodies

end Mantle
