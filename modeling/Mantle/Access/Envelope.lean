import Mantle.Access.Oracle
import Mantle.Db.Restore
import Mantle.Mesh.Apply

/-!
# Mantle.Access.Envelope — content envelopes and who opens them (`services/content_crypto.py`)

A blob opens under its principal's key and the associated data it was made with.  The key is issued to whoever reaches
the collection or the artifact it is asked for.
-/

namespace Mantle

/-! ### Contexts a client writes (`services/mint_context.py`) -/

/-- The client keys of a context's `caller`, where it is a dictionary. -/
def callerPart (ctx : Doc) : Doc :=
  match ctx.get "caller" with
  | .dict items => clientPart (docOfItems items)
  | _ => []

/-- `update_keys`, of parsed contexts. -/
def updateKeys (update stored : Doc) : Doc :=
  let top := clientPart update
  if top.isEmpty then callerPart update
  else ((callerPart update).without fun k => ((clientPart stored).find? k).isSome).update top

/-- `merge_caller_update`, before it is serialized. -/
def mergeCallerUpdate (float : String → Flt) (stored update : Val) : Doc :=
  withClientKeys (parseContext float stored) (updateKeys (parseContext float update) (parseContext float stored))

theorem find?_withClientKeys (stored : Doc) {keys : Doc} (hkeys : Json.KeysNodup keys) (k : String) :
    (withClientKeys stored keys).find? k =
      if k ∉ serverOwnedKeys then keys.find? k
      else if k = "caller" then none
      else stored.find? k := by
  have hclient : (clientPart keys).find? k = if k ∈ serverOwnedKeys then none else keys.find? k :=
    Doc.find?_without_list keys serverOwnedKeys k
  have hnodup : Json.KeysNodup (clientPart keys) := hkeys.sublist (List.filter_sublist.map Prod.fst)
  unfold withClientKeys
  rw [Doc.find?_update hnodup, hclient]
  by_cases hk : k ∈ serverOwnedKeys
  · rw [if_pos hk, if_neg (not_not.mpr hk), Option.none_or]
    by_cases hcaller : k = "caller"
    · rw [if_pos hcaller]
      exact Doc.find?_without_of _ (by simp [hcaller])
    · rw [if_neg hcaller]
      exact Doc.find?_without _ (by simp [hk, hcaller])
  · rw [if_neg hk, if_pos hk, Doc.find?_without_of _ (by simp [hk]), Option.or_none]

namespace Envelope

variable {C : Crypto} {b c' p : String} {d' : Doc}

/-! ### Associated data -/

/-- `_legacy_aad`: the owner and nothing else. -/
def legacyAad (principal : String) : String := principal

def scopedAad (principal collection : String) : String :=
  "mec1-aad-v2:" ++ (toString principal.utf8ByteSize ++ (":" ++ (principal ++ (":" ++ collection))))

/-- The associated data of `encrypt_content`. -/
def writeAad (principal collection : String) : String :=
  if collection ≠ "" then scopedAad principal collection else legacyAad principal

theorem scopedAad_inj {c : String} (h : scopedAad p c = scopedAad p c') : c = c' := by
  unfold scopedAad at h
  simpa [String.ext_iff, String.toList_append] using h

theorem scopedAad_ne_legacyAad (p c : String) : scopedAad p c ≠ legacyAad p := by
  intro h
  have hlen := congrArg (fun s => s.toList.length) h
  simp [scopedAad, legacyAad, String.toList_append] at hlen
  omega

/-! ### Blobs -/

/-- What a blob was made for: an artifact, the principal of the key, the collection bound into it. -/
structure Sealing where
  artifact : String
  principal : String
  collection : String
  owned : principal ≠ ""

structure Blobs where
  sealing : String → Option Sealing
  /-- `is_encrypted`, of the bytes of a text. -/
  isEncrypted : String → Bool
  encrypted : ∀ {b s}, sealing b = some s → isEncrypted b = true
  empty : isEncrypted "" = false

section Open

variable (now : Val → Bool) (db : Store) (requester kind : String) (B : Blobs) (text : String → String)

/-- `AESGCM.decrypt`: under the key and the associated data the blob was made with, and no other. -/
def aeadOpen (principal aad blob : String) : Option String :=
  (B.sealing blob).bind fun s =>
    if s.principal = principal ∧ writeAad s.principal s.collection = aad then some (text blob) else none

/-- `decrypt_content` of a blob that must be encrypted, while the artifact is named to the key oracle. -/
def decryptContent (principal collection artifact blob : String) : Except Refusal String :=
  if !B.isEncrypted blob then .error .failed
  else if principal = "" then .error .failed
  else
    match Oracle.authorized now db requester kind principal collection "read" artifact with
    | .error _ => .error .failed
    | .ok false => .error .keyCustodyDenied
    | .ok true =>
      let legacy := aeadOpen B text principal (legacyAad principal) blob
      let plain :=
        if collection = "" then legacy
        else (aeadOpen B text principal (scopedAad principal collection) blob).or legacy
      match plain with
      | some t => .ok t
      | none => .error .failed

/-- A scope or an artifact as the oracle is given it: nothing, or its text. -/
def named (v : Val) : String := if v.truthy then v.pyStr else ""

/-- The ciphers of `doc_boundary` for one requester: what it seals and hydrates is not looked into. -/
def ciphers (sealText : Val → Val → Val → String → Option String)
    (hydrate : Val → Val → Val → Val → Option String) : Crypto where
  openBlob a p s b :=
    match p, b with
    | .str p, .str b => decryptContent now db requester kind B text p (named s) (named a) b
    | _, _ => .error .failed
  sealText := sealText
  hydrate := hydrate

end Open

section Spec

variable {now : Val → Bool} {db : Store} {requester kind : String} {B : Blobs} {text text' : String → String}
  {p c a b t : String}

theorem aeadOpen_iff {aad : String} : aeadOpen B text p aad b = some t ↔
    ∃ s, B.sealing b = some s ∧ s.principal = p ∧ writeAad p s.collection = aad ∧ text b = t := by
  unfold aeadOpen
  rw [Option.bind_eq_some_iff]
  constructor
  · rintro ⟨s, hs, h⟩
    split_ifs at h with hc
    obtain ⟨rfl, haad⟩ := hc
    exact ⟨s, hs, rfl, haad, Option.some.inj h⟩
  · rintro ⟨s, hs, rfl, haad, rfl⟩
    exact ⟨s, hs, if_pos ⟨rfl, haad⟩⟩

theorem writeAad_legacy : writeAad p c' = legacyAad p ↔ c' = "" := by
  unfold writeAad
  by_cases hc : c' = ""
  · simp [hc]
  · rw [if_pos hc]
    exact ⟨fun h => absurd h (scopedAad_ne_legacyAad p c'), fun h => absurd h hc⟩

theorem writeAad_scoped (hc : c ≠ "") : writeAad p c' = scopedAad p c ↔ c' = c := by
  unfold writeAad
  by_cases hc' : c' = ""
  · subst hc'
    rw [if_neg (by simp)]
    exact ⟨fun h => absurd h.symm (scopedAad_ne_legacyAad p c), fun h => absurd h.symm hc⟩
  · rw [if_pos hc']
    exact ⟨scopedAad_inj, fun h => by rw [h]⟩

/-- The key is issued, and the blob is the principal's, bound to the scope or to no scope. -/
def Opens (now : Val → Bool) (db : Store) (requester kind : String) (B : Blobs) (p c a b : String) : Prop :=
  Oracle.authorized now db requester kind p c "read" a = .ok true ∧
    ∃ s, B.sealing b = some s ∧ s.principal = p ∧ (s.collection = "" ∨ s.collection = c)

theorem decryptContent_ok_iff : decryptContent now db requester kind B text p c a b = .ok t ↔
    Opens now db requester kind B p c a b ∧ text b = t := by
  have hlegacy : aeadOpen B text p (legacyAad p) b = some t ↔
      (∃ s, B.sealing b = some s ∧ s.principal = p ∧ s.collection = "") ∧ text b = t := by
    rw [aeadOpen_iff]
    simp only [writeAad_legacy]
    constructor
    · rintro ⟨s, hs, hp, hc, ht⟩
      exact ⟨⟨s, hs, hp, hc⟩, ht⟩
    · rintro ⟨⟨s, hs, hp, hc⟩, ht⟩
      exact ⟨s, hs, hp, hc, ht⟩
  have hplain : (if c = "" then aeadOpen B text p (legacyAad p) b
      else (aeadOpen B text p (scopedAad p c) b).or (aeadOpen B text p (legacyAad p) b)) = some t ↔
      (∃ s, B.sealing b = some s ∧ s.principal = p ∧ (s.collection = "" ∨ s.collection = c)) ∧ text b = t := by
    by_cases hc : c = ""
    · rw [if_pos hc, hlegacy, hc]
      simp only [or_self]
    · rw [if_neg hc]
      constructor
      · intro h
        rcases Option.or_eq_some_iff.mp h with h | ⟨-, h⟩
        · obtain ⟨s, hs, hp, haad, ht⟩ := aeadOpen_iff.mp h
          exact ⟨⟨s, hs, hp, .inr ((writeAad_scoped hc).mp haad)⟩, ht⟩
        · obtain ⟨⟨s, hs, hp, hnone⟩, ht⟩ := hlegacy.mp h
          exact ⟨⟨s, hs, hp, .inl hnone⟩, ht⟩
      · rintro ⟨⟨s, hs, hp, hbound⟩, ht⟩
        rcases hbound with hnone | hsame
        · refine Option.or_eq_some_iff.mpr (.inr ⟨?_, hlegacy.mpr ⟨⟨s, hs, hp, hnone⟩, ht⟩⟩)
          rw [Option.eq_none_iff_forall_ne_some]
          intro t' h
          obtain ⟨s', hs', -, haad, -⟩ := aeadOpen_iff.mp h
          rw [hs] at hs'
          cases hs'
          exact hc (((writeAad_scoped hc).mp haad).symm.trans hnone)
        · exact Option.or_eq_some_iff.mpr (.inl (aeadOpen_iff.mpr ⟨s, hs, hp, (writeAad_scoped hc).mpr hsame, ht⟩))
  unfold decryptContent Opens
  constructor
  · intro h
    by_cases henc : (!B.isEncrypted b) = true
    · rw [if_pos henc] at h
      cases h
    by_cases hp : p = ""
    · rw [if_neg henc, if_pos hp] at h
      cases h
    rw [if_neg henc, if_neg hp] at h
    split at h
    · cases h
    · cases h
    · rename_i hauth
      dsimp only at h
      split at h
      · rename_i t' ht
        cases h
        obtain ⟨hs, htext⟩ := hplain.mp ht
        exact ⟨⟨hauth, hs⟩, htext⟩
      · cases h
  · rintro ⟨⟨hauth, s, hs, hp, hbound⟩, ht⟩
    have hne : p ≠ "" := by
      rw [← hp]
      exact s.owned
    rw [B.encrypted hs, Bool.not_true, if_neg Bool.false_ne_true, if_neg hne, hauth]
    dsimp only
    rw [hplain.mpr ⟨⟨s, hs, hp, hbound⟩, ht⟩]

theorem decryptContent_eq : decryptContent now db requester kind B text p c a b =
    (decryptContent now db requester kind B (fun _ => "") p c a b).map fun _ => text b := by
  have haead : ∀ aad, aeadOpen B text p aad b = (aeadOpen B (fun _ => "") p aad b).map fun _ => text b := by
    intro aad
    unfold aeadOpen
    cases B.sealing b with
    | none => rfl
    | some s =>
      show (if _ then _ else _) = Option.map _ (if _ then _ else _)
      split_ifs <;> rfl
  unfold decryptContent
  rw [haead, haead]
  split_ifs with henc hp hc
  · rfl
  · rfl
  all_goals
    cases Oracle.authorized now db requester kind p c "read" a with
    | error e => rfl
    | ok issued =>
      cases issued with
      | false => rfl
      | true =>
        dsimp only
        cases aeadOpen B (fun _ => "") p (legacyAad p) b <;>
          cases aeadOpen B (fun _ => "") p (scopedAad p c) b <;> rfl

theorem decryptContent_congr (h : Opens now db requester kind B p c a b → text' b = text b) :
    decryptContent now db requester kind B text' p c a b = decryptContent now db requester kind B text p c a b := by
  rw [decryptContent_eq, @decryptContent_eq _ _ _ _ _ text]
  cases hr : decryptContent now db requester kind B (fun _ => "") p c a b with
  | error e => rfl
  | ok t =>
    show Except.ok (text' b) = Except.ok (text b)
    rw [h (decryptContent_ok_iff.mp hr).1]

end Spec

/-! ### The boundary under two ciphers -/

/-- The id a row is named by to the key oracle. -/
def artifactOf (d : Doc) : Val := (d.get "root_id").orElse (d.get "id")

def bodyPrincipal (d : Doc) : Val := (d.get "content_key_principal").orElse (d.get "created_by")

section Boundary

variable {float : String → Flt} {C C' : Crypto} {d : Doc}

theorem artifactOf_sameKeys (hd : SameKeys d d') : artifactOf d' = artifactOf d := by
  unfold artifactOf
  rw [hd "root_id" (by decide), hd "id" (by decide)]

theorem bodyPrincipal_sameKeys (hd : SameKeys d d') : bodyPrincipal d' = bodyPrincipal d := by
  unfold bodyPrincipal
  rw [hd "content_key_principal" (by decide), hd "created_by" (by decide)]

/-- For the row's artifact and scope the two open the same blobs, and they seal and hydrate alike. -/
structure Alike (C C' : Crypto) (d : Doc) : Prop where
  opens : ∀ p b, C'.openBlob (artifactOf d) p (contentKeyScope d) b = C.openBlob (artifactOf d) p (contentKeyScope d) b
  seals : C'.sealText = C.sealText
  hydrates : C'.hydrate = C.hydrate

theorem Alike.openField (h : Alike C C' d) (v : Val) : openField float C' d v = openField float C d v := by
  unfold Mantle.openField openSealed
  cases v with
  | dict items =>
    dsimp only
    split
    · rfl
    · exact congrArg (fun r => Except.toOption r |>.bind (openedPayload float)) (h.opens _ _)
  | _ => rfl

theorem Alike.unseal (h : Alike C C' d) : unsealContentFields float C' d = unsealContentFields float C d := by
  unfold unsealContentFields
  simp only [h.openField]

theorem Alike.mergedSeal (h : Alike C C' d) (ctx fields top : Doc) :
    mergedSeal float C' d ctx fields top = mergedSeal float C d ctx fields top := by
  unfold Mantle.mergedSeal
  rw [h.openField]

theorem Alike.sameKeys (h : Alike C C' d) (hd : SameKeys d d') : Alike C C' d' := by
  refine ⟨?_, h.seals, h.hydrates⟩
  rw [artifactOf_sameKeys hd, hd.scope]
  exact h.opens

theorem Alike.save (h : Alike C C' d) : encryptArtifactContent float C' d = encryptArtifactContent float C d := by
  have hseal : sealContentFields float C' d = sealContentFields float C d := by
    unfold sealContentFields
    rw [h.seals]
    split
    · rfl
    · rename_i ctx asString _
      dsimp only
      rw [(h.sameKeys (sameKeys_without fun k hk => (mem_sealableDocFields hk).1)).mergedSeal]
  have hbody : encryptBody C' = encryptBody C := by
    funext d
    unfold encryptBody
    rw [h.seals]
  unfold encryptArtifactContent
  rw [hseal, hbody]

theorem decryptBody_congr (hhyd : C'.hydrate = C.hydrate) (strict : Bool)
    (ho : C'.openBlob (artifactOf d) (bodyPrincipal d) (contentKeyScope d) (d.get "content") =
      C.openBlob (artifactOf d) (bodyPrincipal d) (contentKeyScope d) (d.get "content")) :
    decryptBody float C' strict d = decryptBody float C strict d := by
  unfold artifactOf bodyPrincipal at ho
  unfold decryptBody
  rw [hhyd, ho]

end Boundary

/-! ### A grant on one artifact -/

/-- All the requester holds are grants that let it read one artifact, and one at least. -/
def OnlyReads (now : Val → Bool) (db : Store) (requester kind x : String) : Prop :=
  ∃ grants, grantsFor now db requester kind = .ok grants ∧ grants ≠ [] ∧
    ∀ g ∈ grants, g.resource = some x ∧ g.isAllow = true ∧ ∀ a, g.flag a = true ↔ a = .read

section Grant

variable {now : Val → Bool} {db : Store} {requester kind x p c : String}

theorem OnlyReads.seeds (h : OnlyReads now db requester kind x) : x ≠ "" ∧
    ∃ grants, grantsFor now db requester kind = .ok grants ∧
      (∀ r, r ∈ Oracle.allowed grants .read ↔ r = x) ∧ ∀ r, r ∉ Oracle.denied grants .read := by
  obtain ⟨grants, hg, hne, hall⟩ := h
  obtain ⟨g₀, hg₀⟩ := List.exists_mem_of_ne_nil grants hne
  refine ⟨?_, grants, hg, ?_, ?_⟩
  · rintro rfl
    have hres := (hall g₀ hg₀).1
    unfold Grant.resource at hres
    split at hres
    · split_ifs at hres with hs
      exact hs (Option.some.inj hres)
    · cases hres
  · intro r
    unfold Oracle.allowed
    rw [mem_seedsOf]
    constructor
    · rintro ⟨g, hmem, hr, -⟩
      obtain ⟨e, he, rfl⟩ := List.mem_map.mp hmem
      rw [(hall e he).1] at hr
      exact (Option.some.inj hr).symm
    · rintro rfl
      obtain ⟨hres, hallow, hflag⟩ := hall g₀ hg₀
      refine ⟨g₀.toGrant, List.mem_map_of_mem hg₀, hres, ?_⟩
      show (g₀.isAllow && g₀.flag .read) = true
      rw [hallow, (hflag .read).mpr rfl]
      rfl
  · intro r hr
    unfold Oracle.denied at hr
    obtain ⟨g, hmem, -, ht⟩ := mem_seedsOf.mp hr
    obtain ⟨e, he, rfl⟩ := List.mem_map.mp hmem
    have hmask : (!e.isAllow && e.flag .read) = true := ht
    rw [(hall e he).2.1] at hmask
    cases hmask

/-- **What the key check lets through.** -/
theorem OnlyReads.authorized_iff (h : OnlyReads now db requester kind x) :
    Oracle.authorized now db requester kind p c "read" x = .ok true ↔
      requester = p ∨ c ≠ "" ∨ getOriginRoot db x = .ok p := by
  obtain ⟨hx, grants, hg, hallow, hdeny⟩ := h.seeds
  have hreads : Action.ofName "read" = some .read := Action.ofName_name .read
  have hreach : Oracle.reaches now db requester kind x "read" = .ok true := by
    rw [Oracle.reaches_true_iff]
    refine ⟨.read, grants, hreads, hg, ?_⟩
    obtain ⟨rest, hrest⟩ : ∃ rest, (originChain db x .read none).items = x :: rest := originChain_head x none
    rw [hrest]
    exact ⟨[], x, rest, rfl, (hallow x).mpr rfl, by simp [hdeny]⟩
  have hany : ∀ rid, ∃ b, Oracle.reaches now db requester kind rid "read" = .ok b := by
    intro rid
    unfold Oracle.reaches
    rw [hg]
    exact ⟨_, rfl⟩
  unfold Oracle.authorized
  by_cases hself : requester = p
  · rw [if_pos hself]
    exact ⟨fun _ => .inl hself, fun _ => rfl⟩
  · rw [if_neg hself]
    by_cases hc : c = ""
    · rw [if_neg (not_not.mpr hc), Oracle.rootsInclude_true_iff]
      simp only [hself, hc, ne_eq, not_true_eq_false, false_or]
      constructor
      · rintro ⟨a, grants', ha, hg', r, hr, -, hroot⟩
        rw [hreads] at ha
        cases ha
        rw [hg] at hg'
        cases hg'
        rw [(hallow r).mp hr] at hroot
        exact hroot
      · intro hroot
        exact ⟨.read, grants, hreads, hg, x, (hallow x).mpr rfl, hdeny x, hroot⟩
    · rw [if_pos hc]
      refine ⟨fun _ => .inr (.inl hc), fun _ => ?_⟩
      obtain ⟨b, hb⟩ := hany c
      rw [hb]
      cases b with
      | true => rfl
      | false =>
        dsimp only
        rw [if_neg hx, hreach]

end Grant

/-! ### Restored fields -/

theorem restoreFields_cons (raw top : Doc) (k : String) (v : Val) : restoreFields raw ((k, v) :: top) =
    restoreFields (if (raw.get k).truthy then raw else raw.set k v) top := rfl

theorem sameKeys_restoreFields : ∀ (top : Doc) {d d' : Doc}, SameKeys d d' →
    SameKeys (restoreFields d top) (restoreFields d' top)
  | [], _, _, h => h
  | (k, v) :: top, d, d', h => by
    rw [restoreFields_cons, restoreFields_cons]
    refine sameKeys_restoreFields top ?_
    intro k' hk'
    by_cases hk : k' = k
    · subst hk
      rw [h k' hk']
      split_ifs
      · exact h k' hk'
      · rw [Doc.get_set_self, Doc.get_set_self]
    · have hget : ∀ r : Doc, (if (r.get k).truthy then r else r.set k v).get k' = r.get k' := by
        intro r
        split_ifs
        · rfl
        · exact Doc.get_set_of_ne r v hk
      rw [hget, hget, h k' hk']

theorem get_restoreFields_truthy {k : String} : ∀ (top : Doc) {d : Doc}, (d.get k).truthy = true →
    (restoreFields d top).get k = d.get k
  | [], _, _ => rfl
  | (k', v) :: top, d, h => by
    rw [restoreFields_cons]
    by_cases hk' : (d.get k').truthy = true
    · rw [if_pos hk']
      exact get_restoreFields_truthy top h
    · rw [if_neg hk']
      have hne : k ≠ k' := by
        rintro rfl
        exact hk' h
      rw [get_restoreFields_truthy top (by rw [Doc.get_set_of_ne d v hne]; exact h), Doc.get_set_of_ne d v hne]

/-! ### What a grant on one artifact opens -/

section Main

variable (float : String → Flt) (now : Val → Bool) (db : Store) (requester kind : String) (B : Blobs)
  (sealText : Val → Val → Val → String → Option String) (hydrate : Val → Val → Val → Val → Option String)
  (text : String → String) (row : Doc)

/-- **No plaintext of another artifact**: whatever their blobs hold, what the requester saves and reads is the same. -/
def Confined : Prop :=
  ∀ text', (∀ b s, B.sealing b = some s → s.artifact = named (artifactOf row) → text' b = text b) →
    ∀ d, SameKeys row d → ∀ strict,
      encryptArtifactContent float (ciphers now db requester kind B text' sealText hydrate) d =
        encryptArtifactContent float (ciphers now db requester kind B text sealText hydrate) d ∧
      decryptArtifactContent float (ciphers now db requester kind B text' sealText hydrate) strict d =
        decryptArtifactContent float (ciphers now db requester kind B text sealText hydrate) strict d

/-- A blob made for another artifact is bound to another scope; or the row has no scope, and the blob is of a third
principal. -/
def SealedApart : Prop :=
  ∀ b s, B.sealing b = some s → s.artifact ≠ named (artifactOf row) →
    (s.collection ≠ "" ∧ s.collection ≠ named (contentKeyScope row)) ∨
      (named (contentKeyScope row) = "" ∧ requester ≠ s.principal ∧
        getOriginRoot db (named (artifactOf row)) ≠ .ok s.principal)

/-- What a seal of the row restores gives it no key and no scope under which a body of another artifact opens. -/
def RestoredApart : Prop :=
  ∀ ctx f t, sealedParts float (ciphers now db requester kind B text sealText hydrate) row ctx = some (f, t) →
    ∀ b s p, B.sealing b = some s → s.artifact ≠ named (artifactOf row) →
      bodyPrincipal (restoreFields row t) = .str p →
        ¬Opens now db requester kind B p (named (contentKeyScope (restoreFields row t)))
          (named (artifactOf (restoreFields row t))) b

end Main

section Confine

variable {float : String → Flt} {now : Val → Bool} {db : Store} {requester kind : String} {B : Blobs}
  {sealText : Val → Val → Val → String → Option String} {hydrate : Val → Val → Val → Val → Option String}
  {text text' : String → String} {row d : Doc}

theorem opens_slot_iff (honly : OnlyReads now db requester kind (named (artifactOf row))) {s : Sealing}
    (hs : B.sealing b = some s) :
    Opens now db requester kind B s.principal (named (contentKeyScope row)) (named (artifactOf row)) b ↔
      ¬((s.collection ≠ "" ∧ s.collection ≠ named (contentKeyScope row)) ∨
        (named (contentKeyScope row) = "" ∧ requester ≠ s.principal ∧
          getOriginRoot db (named (artifactOf row)) ≠ .ok s.principal)) := by
  unfold Opens
  rw [honly.authorized_iff]
  constructor
  · rintro ⟨hkey, s', hs', -, hbound⟩
    rw [hs] at hs'
    cases hs'
    rintro (⟨h1, h2⟩ | ⟨h1, h2, h3⟩)
    · exact hbound.elim h1 h2
    · rcases hkey with h | h | h
      · exact h2 h
      · exact h h1
      · exact h3 h
  · intro h
    push Not at h
    obtain ⟨h1, h2⟩ := h
    refine ⟨?_, s, hs, rfl, ?_⟩
    · by_cases hself : requester = s.principal
      · exact .inl hself
      · by_cases hscope : named (contentKeyScope row) = ""
        · exact .inr (.inr (h2 hscope hself))
        · exact .inr (.inl hscope)
    · by_cases hc : s.collection = ""
      · exact .inl hc
      · exact .inr (h1 hc)

theorem alike_of_apart (honly : OnlyReads now db requester kind (named (artifactOf row)))
    (hapart : SealedApart db requester B row)
    (htext : ∀ b s, B.sealing b = some s → s.artifact = named (artifactOf row) → text' b = text b) :
    Alike (ciphers now db requester kind B text sealText hydrate)
      (ciphers now db requester kind B text' sealText hydrate) row := by
  refine ⟨?_, rfl, rfl⟩
  intro p b
  cases p with
  | str p =>
    cases b with
    | str b =>
      refine decryptContent_congr ?_
      intro hopen
      obtain ⟨-, s, hs, rfl, -⟩ := id hopen
      by_cases hx : s.artifact = named (artifactOf row)
      · exact htext b s hs hx
      · exact absurd (hapart b s hs hx) ((opens_slot_iff honly hs).mp hopen)
    | _ => rfl
  | _ => rfl

theorem confined_of_apart (honly : OnlyReads now db requester kind (named (artifactOf row)))
    (hapart : SealedApart db requester B row)
    (hrest : RestoredApart float now db requester kind B sealText hydrate text row) :
    Confined float now db requester kind B sealText hydrate text row := by
  intro text' htext d hd strict
  have halike := (@alike_of_apart _ _ _ _ _ sealText hydrate text text' _ honly hapart htext).sameKeys hd
  refine ⟨halike.save, ?_⟩
  unfold decryptArtifactContent
  rw [halike.unseal]
  cases hu : unsealContentFields float (ciphers now db requester kind B text sealText hydrate) d with
  | error e => rfl
  | ok r =>
    show decryptBody float _ strict r = decryptBody float _ strict r
    rcases unsealContentFields_cases hu with ⟨rfl, -⟩ | ⟨ctx, asString, f, t, -, hparts, hput⟩
    · exact decryptBody_congr halike.hydrates strict (halike.opens _ _)
    · have hr : SameKeys (restoreFields row t) r :=
        (sameKeys_restoreFields t hd).trans (sameKeys_putContext hput)
      rw [hd.sealedParts] at hparts
      refine decryptBody_congr halike.hydrates strict ?_
      rw [artifactOf_sameKeys hr, bodyPrincipal_sameKeys hr, hr.scope]
      cases hp : bodyPrincipal (restoreFields row t) with
      | str p =>
        cases r.get "content" with
        | str b =>
          refine decryptContent_congr ?_
          intro hopen
          obtain ⟨-, s, hs, -, -⟩ := id hopen
          by_cases hx : s.artifact = named (artifactOf row)
          · exact htext b s hs hx
          · exact absurd hopen (hrest ctx f t hparts b s p hs hx hp)
        | _ => rfl
      | _ => rfl

/-- A row's document with another context, and an inline body or none. -/
def presenting (row : Doc) (context content encrypted : Val) : Doc :=
  (((row.set "context" context).set "content" content).set "content_encrypted" encrypted).set "content_ref" .none

theorem sameKeys_presenting (row : Doc) (context content encrypted : Val) :
    SameKeys row (presenting row context content encrypted) := by
  intro k hk
  have hne : k ≠ "context" ∧ k ≠ "content" ∧ k ≠ "content_encrypted" ∧ k ≠ "content_ref" := by
    refine ⟨?_, ?_, ?_, ?_⟩ <;> rintro rfl <;> exact absurd hk (by decide)
  unfold presenting
  rw [Doc.get_set_of_ne _ _ hne.2.2.2, Doc.get_set_of_ne _ _ hne.2.2.1, Doc.get_set_of_ne _ _ hne.2.1,
    Doc.get_set_of_ne _ _ hne.1]

theorem get_presenting (row : Doc) (context content encrypted : Val) :
    (presenting row context content encrypted).get "content" = content ∧
      (presenting row context content encrypted).get "content_encrypted" = encrypted ∧
        (presenting row context content encrypted).get "content_ref" = .none := by
  unfold presenting
  refine ⟨?_, ?_, Doc.get_set_self _ _ _⟩
  · rw [Doc.get_set_of_ne _ _ (by decide), Doc.get_set_of_ne _ _ (by decide), Doc.get_set_self]
  · rw [Doc.get_set_of_ne _ _ (by decide), Doc.get_set_self]

theorem contextDict_presenting (row : Doc) (items : List (Key × Val)) (content encrypted : Val) :
    contextDict float (presenting row (.dict items) content encrypted) = (some (docOfItems items), false) := by
  have hget : (presenting row (.dict items) content encrypted).get "context" = .dict items := by
    unfold presenting
    rw [Doc.get_set_of_ne _ _ (by decide), Doc.get_set_of_ne _ _ (by decide), Doc.get_set_of_ne _ _ (by decide),
      Doc.get_set_self]
  unfold contextDict
  rw [hget]

def sealOf (p b : String) : List (Key × Val) := [(.str "sealed", .dict [(.str "p", .str p), (.str "blob", .str b)])]

theorem openField_sealOf (hp : p ≠ "") (d : Doc) :
    openField float C d (((docOfItems (sealOf p b)).get "sealed").orElse (.dict [])) =
      (C.openBlob (artifactOf d) (.str p) (contentKeyScope d) (.str b)).toOption.bind (openedPayload float) := by
  have hv : ((docOfItems (sealOf p b)).get "sealed").orElse (.dict []) =
      .dict [(.str "p", .str p), (.str "blob", .str b)] := rfl
  rw [hv]
  unfold openField openSealed
  have hgp : (docOfItems [(.str "p", .str p), (.str "blob", .str b)]).get "p" = .str p := rfl
  have hgb : (docOfItems [(.str "p", .str p), (.str "blob", .str b)]).get "blob" = .str b := rfl
  dsimp only
  rw [hgp, hgb, if_pos (by simpa using hp)]
  rfl

theorem decryptBody_bare {strict : Bool} (href : (d.get "content_ref").truthy = false)
    (henc : (d.get "content_encrypted").truthy = false) : decryptBody float C strict d = .ok d := by
  unfold decryptBody
  rw [href, henc]
  rfl

def emptyPayload : String := "\x7b\x7d"

theorem openedPayload_empty : openedPayload float emptyPayload = some (.dict [], .dict []) := by
  have hl : Json.loads float emptyPayload = some (.dict []) := by rfl
  unfold openedPayload
  rw [hl]
  rfl

theorem update_agrees {x : String} {s : Sealing} (hs : B.sealing b = some s) (hx : s.artifact ≠ x) (plain : String) :
    ∀ b' s', B.sealing b' = some s' → s'.artifact = x → Function.update text b plain b' = text b' := by
  intro b' s' hs' hx'
  refine Function.update_of_ne ?_ _ _
  rintro rfl
  rw [hs] at hs'
  cases hs'
  exact hx hx'

theorem sealedApart_of_confined (honly : OnlyReads now db requester kind (named (artifactOf row)))
    (hconf : Confined float now db requester kind B sealText hydrate text row) :
    SealedApart db requester B row := by
  intro b s hs hx
  by_contra hbound
  have hopen := (opens_slot_iff honly hs).mpr hbound
  let d := presenting row (.dict (sealOf s.principal b)) .none .none
  have hd : SameKeys row d := sameKeys_presenting _ _ _ _
  have hctx : contextDict float d = (some (docOfItems (sealOf s.principal b)), false) := contextDict_presenting _ _ _ _
  have hnone : ∀ r : Doc, r.get "content_ref" = .none → r.get "content_encrypted" = .none → ∀ C : Crypto,
      decryptBody float C true r = .ok r :=
    fun r h1 h2 C => decryptBody_bare (by rw [h1]; rfl) (by rw [h2]; rfl)
  obtain ⟨-, henc, href⟩ := get_presenting row (.dict (sealOf s.principal b)) .none .none
  have hread : ∀ plain, decryptArtifactContent float
      (ciphers now db requester kind B (Function.update text b plain) sealText hydrate) true d =
      decryptArtifactContent float (ciphers now db requester kind B text sealText hydrate) true d :=
    fun plain => (hconf _ (update_agrees hs hx plain) d hd true).2
  have hfield : ∀ plain, openField float
      (ciphers now db requester kind B (Function.update text b plain) sealText hydrate) d
      (((docOfItems (sealOf s.principal b)).get "sealed").orElse (.dict [])) = openedPayload float plain := by
    intro plain
    rw [openField_sealOf s.owned, artifactOf_sameKeys hd, hd.scope]
    have hplain : decryptContent now db requester kind B (Function.update text b plain) s.principal
        (named (contentKeyScope row)) (named (artifactOf row)) b = .ok plain :=
      decryptContent_ok_iff.mpr ⟨hopen, Function.update_self _ _ _⟩
    show (decryptContent _ _ _ _ _ _ _ _ _ _).toOption.bind _ = _
    rw [hplain]
    rfl
  have hbare : decryptArtifactContent float
      (ciphers now db requester kind B (Function.update text b "") sealText hydrate) true d = .ok d := by
    have hu : unsealContentFields float
        (ciphers now db requester kind B (Function.update text b "") sealText hydrate) d = .ok d := by
      unfold unsealContentFields
      rw [hctx]
      dsimp only
      rw [hfield, openedPayload, loads_empty]
      rfl
    unfold decryptArtifactContent
    rw [hu]
    exact hnone d href henc _
  have hempty : decryptArtifactContent float
      (ciphers now db requester kind B (Function.update text b emptyPayload) sealText hydrate) true d =
        .ok (d.set "context" (.dict [])) := by
    have hu : unsealContentFields float
        (ciphers now db requester kind B (Function.update text b emptyPayload) sealText hydrate) d =
          .ok (d.set "context" (.dict [])) := by
      unfold unsealContentFields
      rw [hctx]
      dsimp only
      rw [hfield, openedPayload_empty]
      rfl
    unfold decryptArtifactContent
    rw [hu]
    refine hnone _ ?_ ?_ _
    · rw [Doc.get_set_of_ne _ _ (by decide), href]
    · rw [Doc.get_set_of_ne _ _ (by decide), henc]
  rw [hread, ← hread emptyPayload, hempty, Except.ok.injEq] at hbare
  have hget := congrArg (fun r => (contextDict float r).1) hbare
  have hset : contextDict float (d.set "context" (.dict [])) = (some [], false) := by
    unfold contextDict
    rw [Doc.get_set_self]
    rfl
  rw [hset, hctx] at hget
  cases hget

theorem decryptBody_opened {strict : Bool} {t : String} (hb : b ≠ "") (hcontent : d.get "content" = .str b)
    (henc : d.get "content_encrypted" = .bool true) (hp : bodyPrincipal d = .str p)
    (ho : C.openBlob (artifactOf d) (.str p) (contentKeyScope d) (.str b) = .ok t) :
    decryptBody float C strict d = .ok ((d.set "content" (.str t)).set "content_encrypted" (.bool false)) := by
  have hthere : (!(d.get "content").truthy) = false := by
    rw [hcontent]
    simpa using hb
  unfold artifactOf at ho
  unfold bodyPrincipal at hp
  unfold decryptBody
  rw [hthere, Bool.and_false, if_neg Bool.false_ne_true, henc, if_pos (by rfl), hp, hcontent, ho]

theorem sealedParts_alone {A : Crypto} {ctx f t : Doc} (h : sealedParts float A d ctx = some (f, t)) :
    sealedParts float A d [("sealed", ctx.get "sealed")] = some (f, t) := by
  unfold sealedParts at h ⊢
  split_ifs at h with hnone
  exact h

theorem restoredApart_of_confined (honly : OnlyReads now db requester kind (named (artifactOf row)))
    (hconf : Confined float now db requester kind B sealText hydrate text row) :
    RestoredApart float now db requester kind B sealText hydrate text row := by
  intro ctx f t hparts b s p hs hx hp hopen
  let alone : Doc := [("sealed", ctx.get "sealed")]
  let d := presenting row (.dict [(.str "sealed", ctx.get "sealed")]) (.str b) (.bool true)
  have hd : SameKeys row d := sameKeys_presenting _ _ _ _
  have hctx : contextDict float d = (some alone, false) := contextDict_presenting _ _ _ _
  obtain ⟨hcontent, henc, -⟩ := get_presenting row (.dict [(.str "sealed", ctx.get "sealed")]) (.str b) (.bool true)
  have hb : b ≠ "" := by
    rintro rfl
    have := B.encrypted hs
    rw [B.empty] at this
    cases this
  let r := (restoreFields d t).set "context" (.dict (setDefaults (alone.without (· = "sealed")) f).toItems)
  have hr : SameKeys (restoreFields row t) r := by
    refine (sameKeys_restoreFields t hd).trans ?_
    exact @sameKeys_putContext (restoreFields d t) r (setDefaults (alone.without (· = "sealed")) f) false rfl
  have hunseal : unsealContentFields float (ciphers now db requester kind B text sealText hydrate) d = .ok r := by
    refine unseal_of_parts hctx (sealedParts_alone ?_)
    rw [hd.sealedParts]
    exact hparts
  have hrcontent : r.get "content" = .str b := by
    rw [Doc.get_set_of_ne _ _ (by decide), get_restoreFields_truthy, hcontent]
    rw [hcontent]
    simpa using hb
  have hrenc : r.get "content_encrypted" = .bool true := by
    rw [Doc.get_set_of_ne _ _ (by decide), get_restoreFields_truthy, henc]
    rw [henc]
    rfl
  have hopened : ∀ text', unsealContentFields float (ciphers now db requester kind B text' sealText hydrate) d = .ok r →
      decryptArtifactContent float (ciphers now db requester kind B text' sealText hydrate) true d =
        .ok ((r.set "content" (.str (text' b))).set "content_encrypted" (.bool false)) := by
    intro text' hu
    unfold decryptArtifactContent
    rw [hu]
    refine decryptBody_opened hb hrcontent hrenc ((bodyPrincipal_sameKeys hr).trans hp) ?_
    rw [artifactOf_sameKeys hr, hr.scope]
    exact decryptContent_ok_iff.mpr ⟨hopen, rfl⟩
  -- another text in the foreign blob leaves the row's seal as it was, and shows in the body
  let other := Function.update text b (text b ++ "x")
  have hagree : ∀ b' s', B.sealing b' = some s' → s'.artifact = named (artifactOf row) →
      other b' = text b' :=
    update_agrees hs hx (text b ++ "x")
  have halike := (@alike_of_apart _ _ _ _ _ sealText hydrate text other _ honly
    (sealedApart_of_confined honly hconf) hagree).sameKeys hd
  have hsame := (hconf other hagree d hd true).2
  rw [hopened text hunseal, hopened other (halike.unseal.trans hunseal), Except.ok.injEq] at hsame
  have hget := congrArg (fun r => Doc.get r "content") hsame
  rw [Doc.get_set_of_ne _ _ (by decide), Doc.get_set_self, Doc.get_set_of_ne _ _ (by decide), Doc.get_set_self,
    Val.str.injEq] at hget
  have hlen := congrArg String.length hget
  rw [show other b = text b ++ "x" from Function.update_self _ _ _, String.length_append] at hlen
  exact absurd hlen (by simp)

end Confine

/-- **A grant on one artifact opens only that artifact**, exactly when no other blob is bound to the row's scope or to
its owner alone, and no restored context leads to one. -/
theorem grant_opens_own_iff (float : String → Flt) (now : Val → Bool) (db : Store) (requester kind : String)
    (B : Blobs) (sealText : Val → Val → Val → String → Option String)
    (hydrate : Val → Val → Val → Val → Option String) (text : String → String) (row : Doc)
    (honly : OnlyReads now db requester kind (named (artifactOf row))) :
    Confined float now db requester kind B sealText hydrate text row ↔
      SealedApart db requester B row ∧ RestoredApart float now db requester kind B sealText hydrate text row :=
  ⟨fun h => ⟨sealedApart_of_confined honly h, restoredApart_of_confined honly h⟩,
    fun h => confined_of_apart honly h.1 h.2⟩

/-! ### Two artifacts of one collection -/

def sharedNode : Node :=
  hereNode.run
    [.putArtifact [("id", .str "c"), ("content_type", .str collectionContentType)] true false,
     .putArtifact [("id", .str "x"), ("content_type", .str "text/plain"), ("collection_id", .str "c")] true false,
     .putArtifact [("id", .str "y"), ("content_type", .str "text/plain"), ("collection_id", .str "c")] true false,
     .putArtifact (grantDoc "g" "u" "x" "allow") true false]

theorem sharedNode_onlyReads : OnlyReads (fun _ => true) sharedNode.db "u" "user" "x" := by
  have hheld : (grantsFor (fun _ => true) sharedNode.db "u" "user").toOption.map
      (fun grants => grants.map fun g => (g.resource, g.isAllow, Action.all.filter g.flag)) =
      some [(some "x", true, [.read])] := by decide +kernel
  cases hg : grantsFor (fun _ => true) sharedNode.db "u" "user" with
  | error e =>
    rw [hg] at hheld
    cases hheld
  | ok grants =>
    rw [hg] at hheld
    have hmap := Option.some.inj hheld
    refine ⟨grants, hg, ?_, ?_⟩
    · rintro rfl
      cases hmap
    · intro g hmem
      have hone : (g.resource, g.isAllow, Action.all.filter g.flag) ∈ [(some "x", true, [Action.read])] := by
        rw [← hmap]
        exact List.mem_map_of_mem hmem
      rw [List.mem_singleton] at hone
      obtain ⟨hres, hrest⟩ := Prod.mk.inj hone
      obtain ⟨hallow, hflag⟩ := Prod.mk.inj hrest
      refine ⟨hres, hallow, ?_⟩
      intro a
      have ha : a ∈ Action.all := by cases a <;> decide
      have hmem : a ∈ Action.all.filter g.flag ↔ a ∈ [Action.read] := by rw [hflag]
      rw [List.mem_filter, List.mem_singleton] at hmem
      exact ⟨fun h => hmem.mp ⟨ha, h⟩, fun h => (hmem.mpr h).2⟩

def salariesBlobs : Blobs where
  sealing b := if b = "TUVDMQ==" then some ⟨"y", "c", "c", by decide⟩ else none
  isEncrypted b := b = "TUVDMQ=="
  encrypted {b s} h := by
    split_ifs at h with hb
    exact decide_eq_true hb
  empty := by decide

def salaries (title : String) : String := "\x7b\"v\": 2, \"context\": \x7b\"title\": \"" ++ title ++ "\"\x7d\x7d"

def updatedRow (stored update : Val) : Doc :=
  [("id", .str "x"), ("root_id", .str "x"), ("collection_id", .str "c"), ("origin_root", .str "c"),
   ("content_type", .str "text/plain"), ("created_by", .str "u"),
   ("context", .dict (mergeCallerUpdate flatFloat stored update).toItems)]

def smuggled : Doc :=
  updatedRow (.dict [(.str "content_key", .str "k")])
    (.dict [(.str "sealed", .dict [(.str "p", .str "c"), (.str "blob", .str "TUVDMQ==")])])

def sharedCiphers (title : String) : Crypto :=
  ciphers (fun _ => true) sharedNode.db "u" "user" salariesBlobs (fun _ => salaries title) (fun _ _ _ _ => none)
    fun _ _ _ _ => none

def readTitle (C : Crypto) (d : Doc) : Option String :=
  (decryptArtifactContent flatFloat C true d).toOption.bind fun r =>
    (contextDict flatFloat r).1.map fun ctx => (ctx.get "title").pyStr

theorem smuggled_read : (encryptArtifactContent flatFloat (sharedCiphers "Salaries") smuggled).toOption.map
      (fun d => (Val.dict d.toItems).repr) = some (Val.dict smuggled.toItems).repr ∧
    readTitle (sharedCiphers "Salaries") smuggled = some "Salaries" ∧
    readTitle (sharedCiphers "Payroll") smuggled = some "Payroll" := by
  decide +kernel

theorem neighbour_opened :
    ¬ ∀ (float : String → Flt) (now : Val → Bool) (db : Store) (requester kind : String) (B : Blobs)
        (sealText : Val → Val → Val → String → Option String)
        (hydrate : Val → Val → Val → Val → Option String) (text : String → String) (row : Doc),
        OnlyReads now db requester kind (named (artifactOf row)) →
          Confined float now db requester kind B sealText hydrate text row := by
  intro h
  have hconf := h flatFloat (fun _ => true) sharedNode.db "u" "user" salariesBlobs (fun _ _ _ _ => none)
    (fun _ _ _ _ => none) (fun _ => salaries "Salaries") smuggled sharedNode_onlyReads
  have hread := (hconf (fun _ => salaries "Payroll") ?_ smuggled (fun _ _ => rfl) true).2
  · have hsame : readTitle (sharedCiphers "Payroll") smuggled = readTitle (sharedCiphers "Salaries") smuggled :=
      congrArg (fun r => r.toOption.bind fun r => (contextDict flatFloat r).1.map fun ctx => (ctx.get "title").pyStr) hread
    rw [smuggled_read.2.1, smuggled_read.2.2] at hsame
    exact absurd hsame (by decide)
  · intro b s hs hx
    simp only [salariesBlobs] at hs
    split_ifs at hs
    cases hs
    exact absurd hx (by decide)

theorem grant_opens_own_iff_shared :
    Confined flatFloat (fun _ => true) sharedNode.db "u" "user" salariesBlobs (fun _ _ _ _ => none)
        (fun _ _ _ _ => none) (fun _ => salaries "Salaries") smuggled ↔
      SealedApart sharedNode.db "u" salariesBlobs smuggled ∧
        RestoredApart flatFloat (fun _ => true) sharedNode.db "u" "user" salariesBlobs (fun _ _ _ _ => none)
          (fun _ _ _ _ => none) (fun _ => salaries "Salaries") smuggled :=
  grant_opens_own_iff flatFloat (fun _ => true) sharedNode.db "u" "user" salariesBlobs (fun _ _ _ _ => none)
    (fun _ _ _ _ => none) (fun _ => salaries "Salaries") smuggled sharedNode_onlyReads

end Envelope

end Mantle
