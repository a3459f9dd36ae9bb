import Mathlib.Data.Finset.Basic
import Mantle.Search.Custody

/-!
# Mantle.Content.Cache — the local content tier (`db/content_cache.py`)

An object is kept under the digest of its plaintext and sealed under the node's key.  A read tries the keys of three
generations, hashes what opens, and can seal it again.
-/

namespace Mantle

namespace Content

inductive ContentErr
  | valueError
  /-- `CacheMiss`. -/
  | miss
  /-- `CacheCorrupt`. -/
  | corrupt
  /-- `ContentKeyMismatch`, which is a `CacheCorrupt`. -/
  | keyMismatch
  | remoteMiss
  | remoteCorrupt
  /-- `ContentKeyMissing`. -/
  | keyMissing
  | osError
  /-- What the remote raises. -/
  | remoteError
deriving DecidableEq, Repr

/-- AES-GCM opens an object only under the key and the ref it was sealed with, and the remote tier's cipher opens what
it sealed. -/
structure Crypto (κ β γ : Type) where
  sha256 : Bytes → String
  /-- With the nonce of the write. -/
  aesEncrypt : ℕ → κ → String → Bytes → β
  aesDecrypt : κ → String → β → Option Bytes
  /-- Shorter than a nonce and a tag. -/
  tooShort : β → Bool
  encrypt : ℕ → Bytes → γ
  decrypt : γ → Option Bytes
  opens_sealed : ∀ nonce key ref p, aesDecrypt key ref (aesEncrypt nonce key ref p) = some p
  opens_only : ∀ {key key' ref ref' b p p'}, aesDecrypt key ref b = some p → aesDecrypt key' ref' b = some p' →
    key = key' ∧ ref = ref'
  sealed_long : ∀ nonce key ref p, tooShort (aesEncrypt nonce key ref p) = false
  decrypt_encrypt : ∀ nonce p, decrypt (encrypt nonce p) = some p

/-! ### Refs -/

def casPrefix : String := "cas/"

/-- `_hash_of`; none is a `ValueError`. -/
def hashOf (ref : String) : Option String :=
  if ref.toList.take 4 = casPrefix.toList then
    let h := ref.toList.drop 4
    if h.length = 64 ∧ h.all (fun c => c ∈ "0123456789abcdef".toList) = true then some (String.ofList h) else none
  else none

theorem hashOf_eq_some {ref h : String} (hh : hashOf ref = some h) : ref = casPrefix ++ h := by
  unfold hashOf at hh
  dsimp only at hh
  split_ifs at hh with hp hlen
  obtain rfl := Option.some.inj hh
  refine String.toList_injective ?_
  rw [String.toList_append, String.toList_ofList, ← hp, List.take_append_drop]

/-! ### What the disk and the remote do in a call -/

structure Env where
  /-- The file can be read. -/
  reads : Bool
  /-- The write of `_rewrite_shared` goes through. -/
  rewrites : Bool
  /-- The write of a `put` goes through. -/
  writes : Bool
  unlinks : String → Bool
  /-- A free-space floor is configured. -/
  floor : Bool
  /-- Each reading of the free space: whether it is enough, or none when it cannot be read. -/
  free : ℕ → Option Bool
  /-- The file names in the order in which a sweep comes to them. -/
  listing : List String
  /-- The remote answers `exists`. -/
  asks : String → Bool
  /-- The remote answers a `get`. -/
  fetches : Bool
  /-- The remote accepts a `put`. -/
  accepts : Bool
  /-- The key of the remote's cipher is there. -/
  keyed : Bool
  nonce : ℕ

variable {κ β γ : Type}

/-- `FileContentCache`: its files by name, and its keys. -/
structure Cache (κ β : Type) where
  files : String → Option β
  key : κ
  /-- `legacy_key_for_collection`, none where it has no key. -/
  legacy : String → Option κ
  previous : List κ
  rekeyPrevious : Bool

namespace Cache

variable {h ref : String} {p : Bytes}

variable (K : Crypto κ β γ) (c : Cache κ β) (E : Env)

/-- `_decrypt`, with whether the object is to be sealed again under the key. -/
def decrypt (blob : β) (ref collection : String) : Except ContentErr (Bytes × Bool) :=
  if K.tooShort blob then .error .corrupt
  else
    match K.aesDecrypt c.key ref blob with
    | some p => .ok (p, false)
    | none =>
      match (c.legacy collection).bind fun k => K.aesDecrypt k ref blob with
      | some p => .ok (p, true)
      | none =>
        match c.previous.findSome? fun k => K.aesDecrypt k ref blob with
        | some p => .ok (p, c.rekeyPrevious)
        | none => .error .keyMismatch

def remove (h : String) : Cache κ β := { c with files := Function.update c.files h none }

def write (h : String) (blob : β) : Cache κ β := { c with files := Function.update c.files h (some blob) }

def evict (h : String) : Cache κ β := if E.unlinks h then c.remove h else c

def rewriteShared (ref h : String) (plain : Bytes) : Cache κ β :=
  if E.rewrites then c.write h (K.aesEncrypt E.nonce c.key ref plain) else c

def get (ref collection : String) : Except ContentErr Bytes × Cache κ β :=
  match hashOf ref with
  | none => (.error .valueError, c)
  | some h =>
    match c.files h with
    | none => (.error .miss, c)
    | some blob =>
      if E.reads = false then (.error .osError, c)
      else
        match c.decrypt K blob ref collection with
        | .error .keyMismatch => (.error .keyMismatch, c)
        | .error e => (.error e, c.evict E h)
        | .ok (plain, wasLegacy) =>
          if K.sha256 plain ≠ h then (.error .corrupt, c.evict E h)
          else (.ok plain, if wasLegacy then c.rewriteShared K E ref h plain else c)

/-- The loop of `_ensure_free`, from a reading of the free space on. -/
def evictLoop (durable : String → Bool) : ℕ → List String → Cache κ β → Cache κ β
  | _, [], c => c
  | i, name :: names, c =>
    match E.free i with
    | some false =>
      if name.length = 64 ∧ durable (casPrefix ++ name) = true ∧ E.unlinks name = true then
        evictLoop durable (i + 1) names (c.remove name)
      else evictLoop durable (i + 1) names c
    | _ => c

/-- `_ensure_free`; without a durability oracle nothing is evicted. -/
def ensureFree (durable : Option (String → Bool)) : Cache κ β :=
  match E.free 0, durable with
  | some false, some d => evictLoop E d 1 E.listing c
  | _, _ => c

/-- The write of a `put`. -/
def store (durable : Option (String → Bool)) (ref h : String) (plain : Bytes) :
    Except ContentErr Bool × Cache κ β :=
  let c' := if E.floor then c.ensureFree E durable else c
  if E.writes then (.ok true, c'.write h (K.aesEncrypt E.nonce c'.key ref plain)) else (.error .osError, c')

def put (durable : Option (String → Bool)) (ref : String) (plain : Bytes) (collection : String) :
    Except ContentErr Bool × Cache κ β :=
  match hashOf ref with
  | none => (.error .valueError, c)
  | some h =>
    if K.sha256 plain ≠ h then (.error .corrupt, c)
    else
      match c.files h with
      | none => c.store K E durable ref h plain
      | some _ =>
        match c.get K E ref collection with
        | (.ok _, c') => (.ok false, c')
        | (.error .keyMismatch, c') => (.error .keyMismatch, c')
        | (.error .osError, c') => (.error .osError, c')
        | (.error _, c') => c'.store K E durable ref h plain

/-! ### Which objects open -/

def keys (collection : String) : List κ := c.key :: ((c.legacy collection).toList ++ c.previous)

variable {K c E}

theorem decrypt_ok {blob : β} {collection : String} {b : Bool} (h : c.decrypt K blob ref collection = .ok (p, b)) :
    K.tooShort blob = false ∧ ∃ k ∈ c.keys collection, K.aesDecrypt k ref blob = some p := by
  unfold decrypt at h
  split_ifs at h with hs
  refine ⟨by simpa using hs, ?_⟩
  unfold keys
  cases hk : K.aesDecrypt c.key ref blob with
  | some q =>
    simp only [hk] at h
    cases h
    exact ⟨c.key, List.mem_cons_self, hk⟩
  | none =>
    simp only [hk] at h
    cases hl : (c.legacy collection).bind fun k => K.aesDecrypt k ref blob with
    | some q =>
      simp only [hl] at h
      cases h
      obtain ⟨k, hk', hq⟩ := Option.bind_eq_some_iff.mp hl
      exact ⟨k, List.mem_cons_of_mem _ (List.mem_append_left _ (Option.mem_toList.mpr hk')), hq⟩
    | none =>
      simp only [hl] at h
      cases hp : c.previous.findSome? fun k => K.aesDecrypt k ref blob with
      | some q =>
        simp only [hp] at h
        cases h
        obtain ⟨k, hk', hq⟩ := List.exists_of_findSome?_eq_some hp
        exact ⟨k, List.mem_cons_of_mem _ (List.mem_append_right _ hk'), hq⟩
      | none =>
        simp only [hp] at h
        cases h

theorem decrypt_of_opens {blob : β} {collection : String} {k : κ} (hs : K.tooShort blob = false)
    (hk : k ∈ c.keys collection) (hp : K.aesDecrypt k ref blob = some p) :
    ∃ b, c.decrypt K blob ref collection = .ok (p, b) := by
  -- no other key opens it
  have honly : ∀ {k' q}, K.aesDecrypt k' ref blob = some q → q = p := by
    intro k' q hq
    obtain ⟨rfl, -⟩ := K.opens_only hq hp
    rw [hq] at hp
    exact Option.some.inj hp
  unfold decrypt
  rw [if_neg (by rw [hs]; exact Bool.false_ne_true)]
  cases hkey : K.aesDecrypt c.key ref blob with
  | some q => exact ⟨false, by rw [honly hkey]⟩
  | none =>
    cases hl : (c.legacy collection).bind fun k => K.aesDecrypt k ref blob with
    | some q =>
      obtain ⟨k', -, hq⟩ := Option.bind_eq_some_iff.mp hl
      exact ⟨true, by simp only [honly hq]⟩
    | none =>
      cases hf : c.previous.findSome? fun k => K.aesDecrypt k ref blob with
      | some q =>
        obtain ⟨k', -, hq⟩ := List.exists_of_findSome?_eq_some hf
        exact ⟨c.rekeyPrevious, by simp only [honly hq]⟩
      | none =>
        unfold keys at hk
        rcases List.mem_cons.mp hk with rfl | hk
        · rw [hkey] at hp
          cases hp
        rcases List.mem_append.mp hk with hk | hk
        · rw [Option.mem_toList.mp hk, Option.bind_some, hp] at hl
          cases hl
        · rw [List.findSome?_eq_none_iff.mp hf k hk] at hp
          cases hp

/-- The object is proven corrupt: too short, or it opens and does not hash to its name. -/
def Corrupt (K : Crypto κ β γ) (c : Cache κ β) (collection h : String) (blob : β) : Prop :=
  K.tooShort blob = true ∨
    ∃ p b, c.decrypt K blob (casPrefix ++ h) collection = .ok (p, b) ∧ K.sha256 p ≠ h

def Opens (K : Crypto κ β γ) (c : Cache κ β) (collection h : String) (blob : β) : Prop :=
  ∃ p b, c.decrypt K blob (casPrefix ++ h) collection = .ok (p, b) ∧ K.sha256 p = h

theorem Opens.not_corrupt {collection collection' : String} {blob : β} (ho : c.Opens K collection h blob) :
    ¬c.Corrupt K collection' h blob := by
  obtain ⟨p, b, hp, hsha⟩ := ho
  obtain ⟨hlong, k, hk, hkp⟩ := decrypt_ok hp
  rintro (hs | ⟨q, b', hq, hne⟩)
  · rw [hlong] at hs
    cases hs
  · obtain ⟨-, k', -, hkq⟩ := decrypt_ok hq
    obtain ⟨rfl, -⟩ := K.opens_only hkp hkq
    rw [hkp] at hkq
    exact hne (Option.some.inj hkq ▸ hsha)

theorem opens_aesEncrypt {k : κ} {collection : String} (hk : k ∈ c.keys collection) (nonce : ℕ)
    (hp : K.sha256 p = h) : c.Opens K collection h (K.aesEncrypt nonce k (casPrefix ++ h) p) := by
  obtain ⟨b, hb⟩ := decrypt_of_opens (K.sealed_long nonce k _ p) hk (K.opens_sealed nonce k _ p)
  exact ⟨p, b, hb, hp⟩

/-! ### What an operation takes -/

/-- Files have gone, each for a reason; the keys are the same. -/
structure Drops (why : String → β → Prop) (c c' : Cache κ β) : Prop where
  key : c'.key = c.key
  legacy : c'.legacy = c.legacy
  previous : c'.previous = c.previous
  rekeyPrevious : c'.rekeyPrevious = c.rekeyPrevious
  files : ∀ h, c'.files h = c.files h ∨ c'.files h = none ∧ ∃ blob, c.files h = some blob ∧ why h blob

namespace Drops

variable {why why' : String → β → Prop} {c₁ c₂ : Cache κ β}

theorem refl (c : Cache κ β) : Drops why c c := ⟨rfl, rfl, rfl, rfl, fun _ => .inl rfl⟩

theorem trans (h₁ : Drops why c c₁) (h₂ : Drops why c₁ c₂) : Drops why c c₂ where
  key := h₂.key.trans h₁.key
  legacy := h₂.legacy.trans h₁.legacy
  previous := h₂.previous.trans h₁.previous
  rekeyPrevious := h₂.rekeyPrevious.trans h₁.rekeyPrevious
  files := by
    intro h
    rcases h₂.files h with he | ⟨hn, blob, hb, hw⟩
    · rw [he]
      exact h₁.files h
    · rcases h₁.files h with he | ⟨hn', -⟩
      · exact .inr ⟨hn, blob, he ▸ hb, hw⟩
      · rw [hn'] at hb
        cases hb

theorem mono (h : Drops why c c₁) (hw : ∀ x blob, c.files x = some blob → why x blob → why' x blob) :
    Drops why' c c₁ := by
  refine ⟨h.key, h.legacy, h.previous, h.rekeyPrevious, fun x => (h.files x).imp id ?_⟩
  rintro ⟨hn, blob, hb, hr⟩
  exact ⟨hn, blob, hb, hw x blob hb hr⟩

theorem remove {name : String} (hw : ∀ blob, c.files name = some blob → why name blob) :
    Drops why c (c.remove name) := by
  refine ⟨rfl, rfl, rfl, rfl, fun h => ?_⟩
  by_cases hn : h = name
  · subst hn
    have hgone : (c.remove h).files h = none := Function.update_self ..
    cases hb : c.files h with
    | none => exact .inl hgone
    | some blob => exact .inr ⟨hgone, blob, rfl, hw blob hb⟩
  · exact .inl (Function.update_of_ne hn _ _)

theorem decrypt (h : Drops why c c₁) (K : Crypto κ β γ) : c₁.decrypt K = c.decrypt K := by
  unfold Cache.decrypt
  rw [h.key, h.legacy, h.previous, h.rekeyPrevious]

end Drops

theorem drops_evict (c : Cache κ β) (E : Env) {name : String} {why : String → β → Prop}
    (hw : ∀ blob, c.files name = some blob → why name blob) : Drops why c (c.evict E name) := by
  unfold evict
  split_ifs
  · exact .remove hw
  · exact .refl c

theorem drops_evictLoop (E : Env) (durable : String → Bool) : ∀ (i : ℕ) (names : List String) (c : Cache κ β),
    Drops (fun h _ => durable (casPrefix ++ h) = true) c (evictLoop E durable i names c)
  | _, [], c => .refl c
  | i, name :: names, c => by
    unfold evictLoop
    split
    · split_ifs with hd
      · exact (Drops.remove fun _ _ => hd.2.1).trans (drops_evictLoop E durable (i + 1) names _)
      · exact drops_evictLoop E durable (i + 1) names c
    · exact .refl c

theorem drops_ensureFree (c : Cache κ β) (E : Env) (durable : Option (String → Bool)) :
    Drops (fun h _ => durable.any (fun d => d (casPrefix ++ h)) = true) c (c.ensureFree E durable) := by
  unfold ensureFree
  split
  · exact drops_evictLoop E _ 1 E.listing c
  · exact .refl c

theorem decrypt_error {blob : β} {collection : String} {e : ContentErr}
    (h : c.decrypt K blob ref collection = .error e) :
    e = .keyMismatch ∨ e = .corrupt ∧ K.tooShort blob = true := by
  unfold decrypt at h
  split_ifs at h with hs
  · exact .inr ⟨(Except.error.inj h).symm, hs⟩
  · left
    split at h
    · cases h
    · split at h
      · cases h
      · split at h
        · cases h
        · exact (Except.error.inj h).symm

/-- **What a read does.** -/
theorem get_spec (K : Crypto κ β γ) (c : Cache κ β) (E : Env) (ref collection : String) :
    (∃ h blob p b, hashOf ref = some h ∧ c.files h = some blob ∧
      c.decrypt K blob ref collection = .ok (p, b) ∧ K.sha256 p = h ∧
      c.get K E ref collection = (.ok p, if b then c.rewriteShared K E ref h p else c)) ∨
    ∃ e c', c.get K E ref collection = (.error e, c') ∧ Drops (c.Corrupt K collection) c c' ∧
      (e = .valueError ∧ hashOf ref = none ∨ e = .osError ∧ E.reads = false ∨ e = .keyMismatch ∨
        (e = .miss ∨ e = .corrupt) ∧
          ∀ h blob, hashOf ref = some h → c.files h = some blob → c.Corrupt K collection h blob) := by
  unfold get
  cases hh : hashOf ref with
  | none => exact .inr ⟨_, c, rfl, .refl c, .inl ⟨rfl, rfl⟩⟩
  | some h =>
    dsimp only
    cases hb : c.files h with
    | none =>
      refine .inr ⟨_, c, rfl, .refl c, .inr (.inr (.inr ⟨.inl rfl, fun h' blob hh' hb' => ?_⟩))⟩
      cases hh'
      rw [hb] at hb'
      cases hb'
    | some blob =>
      have honly : ∀ {P : String → β → Prop}, P h blob → ∀ h' blob', some h = some h' → c.files h' = some blob' →
          P h' blob' := by
        rintro P hP h' blob' ⟨⟩ hb'
        rw [hb] at hb'
        exact Option.some.inj hb' ▸ hP
      dsimp only
      split_ifs with hr
      · exact .inr ⟨_, c, rfl, .refl c, .inr (.inl ⟨rfl, hr⟩)⟩
      · cases hd : c.decrypt K blob ref collection with
        | error e =>
          rcases decrypt_error hd with rfl | ⟨rfl, hs⟩
          · exact .inr ⟨_, c, rfl, .refl c, .inr (.inr (.inl rfl))⟩
          · have hc := honly (P := c.Corrupt K collection) (.inl hs)
            exact .inr ⟨_, c.evict E h, rfl, drops_evict c E fun blob' hb' => hc h blob' rfl hb',
              .inr (.inr (.inr ⟨.inr rfl, hc⟩))⟩
        | ok r =>
          obtain ⟨p, b⟩ := r
          dsimp only
          by_cases hsha : K.sha256 p = h
          · rw [if_neg (not_not.mpr hsha)]
            exact .inl ⟨h, blob, p, b, rfl, hb, hd, hsha, rfl⟩
          · rw [if_pos hsha]
            have hc := honly (P := c.Corrupt K collection)
              (.inr ⟨p, b, by rwa [← hashOf_eq_some hh], hsha⟩)
            exact .inr ⟨_, c.evict E h, rfl, drops_evict c E fun blob' hb' => hc h blob' rfl hb',
              .inr (.inr (.inr ⟨.inr rfl, hc⟩))⟩

theorem store_spec (K : Crypto κ β γ) (c : Cache κ β) (E : Env) (durable : Option (String → Bool)) (ref h : String)
    (plain : Bytes) :
    ∃ c', Drops (fun x _ => durable.any (fun d => d (casPrefix ++ x)) = true) c c' ∧
      (c.store K E durable ref h plain = (.ok true, c'.write h (K.aesEncrypt E.nonce c'.key ref plain)) ∨
        c.store K E durable ref h plain = (.error .osError, c')) := by
  unfold store
  dsimp only
  refine ⟨if E.floor then c.ensureFree E durable else c, ?_, ?_⟩
  · split_ifs
    · exact drops_ensureFree c E durable
    · exact .refl c
  · by_cases hw : E.writes = true
    · rw [if_pos hw]
      exact .inl rfl
    · rw [if_neg hw]
      exact .inr rfl

/-- Files have gone for a reason, and at most one object has been written, in place of none, of one that had a reason to
go, or of one that opens to the same bytes. -/
def Becomes (K : Crypto κ β γ) (collection : String) (why : String → β → Prop) (c c' : Cache κ β) : Prop :=
  ∃ c₁, Drops why c c₁ ∧ (c' = c₁ ∨ ∃ h nonce p, K.sha256 p = h ∧
    c' = c₁.write h (K.aesEncrypt nonce c₁.key (casPrefix ++ h) p) ∧
    ∀ blob, c.files h = some blob →
      why h blob ∨ ∃ b, c.decrypt K blob (casPrefix ++ h) collection = .ok (p, b))

variable {collection : String} {why why' : String → β → Prop}

theorem Drops.becomes {c₁ : Cache κ β} (h : Drops why c c₁) : c.Becomes K collection why c₁ := ⟨c₁, h, .inl rfl⟩

theorem Becomes.mono {c' : Cache κ β} (h : c.Becomes K collection why c')
    (hw : ∀ x blob, c.files x = some blob → why x blob → why' x blob) : c.Becomes K collection why' c' := by
  obtain ⟨c₁, hd, hc⟩ := h
  refine ⟨c₁, hd.mono hw, hc.imp id ?_⟩
  rintro ⟨h, n, p, hp, hc', hr⟩
  exact ⟨h, n, p, hp, hc', fun blob hb => (hr blob hb).imp (hw h blob hb) id⟩

theorem Drops.trans_becomes {c₁ c' : Cache κ β} (hd : Drops why c c₁) (hb : c₁.Becomes K collection why c') :
    c.Becomes K collection why c' := by
  obtain ⟨c₂, hd₂, hc⟩ := hb
  refine ⟨c₂, hd.trans hd₂, hc.imp id ?_⟩
  rintro ⟨h, n, p, hp, hc', hr⟩
  refine ⟨h, n, p, hp, hc', fun blob hblob => ?_⟩
  rcases hd.files h with he | ⟨-, blob', hb', hw⟩
  · rw [← hd.decrypt K]
    exact hr blob (he.trans hblob)
  · rw [hblob] at hb'
    exact .inl (Option.some.inj hb' ▸ hw)

theorem get_becomes (K : Crypto κ β γ) (c : Cache κ β) (E : Env) (ref collection : String) :
    c.Becomes K collection (c.Corrupt K collection) (c.get K E ref collection).2 := by
  rcases get_spec K c E ref collection with ⟨h, blob, p, b, hh, hb, hd, hsha, hget⟩ | ⟨e, c', hget, hdrop, -⟩
  · rw [hget]
    dsimp only
    split_ifs
    · unfold rewriteShared
      split_ifs
      · refine ⟨c, .refl c, .inr ⟨h, E.nonce, p, hsha, by rw [← hashOf_eq_some hh], fun blob' hb' => .inr ⟨b, ?_⟩⟩⟩
        rw [hb] at hb'
        rw [← hashOf_eq_some hh, ← Option.some.inj hb']
        exact hd
      · exact (Drops.refl c).becomes
    · exact (Drops.refl c).becomes
  · rw [hget]
    exact hdrop.becomes

def PutTakes (K : Crypto κ β γ) (c : Cache κ β) (collection : String) (durable : Option (String → Bool)) (h : String)
    (blob : β) : Prop :=
  c.Corrupt K collection h blob ∨ durable.any (fun d => d (casPrefix ++ h)) = true

theorem put_becomes (K : Crypto κ β γ) (c : Cache κ β) (E : Env) (durable : Option (String → Bool)) (ref : String)
    (plain : Bytes) (collection : String) :
    c.Becomes K collection (c.PutTakes K collection durable) (c.put K E durable ref plain collection).2 := by
  -- the write, after the object in the way was proven corrupt
  have hstore : ∀ {h c₀}, hashOf ref = some h → K.sha256 plain = h → Drops (c.PutTakes K collection durable) c c₀ →
      (∀ blob, c.files h = some blob → c.Corrupt K collection h blob) →
      c.Becomes K collection (c.PutTakes K collection durable) (c₀.store K E durable ref h plain).2 := by
    intro h c₀ hh hsha hdrop hcorrupt
    obtain ⟨c', hd, hst | hst⟩ := store_spec K c₀ E durable ref h plain <;> rw [hst]
    · refine ⟨c', hdrop.trans (hd.mono fun x blob _ hx => .inr hx), .inr ⟨h, E.nonce, plain, hsha, ?_, ?_⟩⟩
      · rw [← hashOf_eq_some hh]
      · exact fun blob hb => .inl (.inl (hcorrupt blob hb))
    · exact (hdrop.trans (hd.mono fun x blob _ hx => .inr hx)).becomes
  unfold put
  cases hh : hashOf ref with
  | none => exact (Drops.refl c).becomes
  | some h =>
    dsimp only
    split_ifs with hsha
    · exact (Drops.refl c).becomes
    · rw [not_not] at hsha
      cases hb : c.files h with
      | none =>
        refine hstore hh hsha (.refl c) fun blob hb' => ?_
        rw [hb] at hb'
        cases hb'
      | some blob =>
        have hget : c.Becomes K collection (c.PutTakes K collection durable) (c.get K E ref collection).2 :=
          (get_becomes K c E ref collection).mono fun x blob _ hx => .inl hx
        rcases get_spec K c E ref collection with ⟨_, _, p, _, -, -, -, -, hg⟩ | ⟨e, c', hg, hdrop, hkind⟩
        · rw [hg] at hget ⊢
          exact hget
        · rw [hg] at hget ⊢
          dsimp only at hget ⊢
          have hwrite : (∀ blob, c.files h = some blob → c.Corrupt K collection h blob) →
              c.Becomes K collection (c.PutTakes K collection durable) (c'.store K E durable ref h plain).2 :=
            hstore hh hsha (hdrop.mono fun x blob _ hx => .inl hx)
          rcases hkind with ⟨rfl, hnone⟩ | ⟨rfl, -⟩ | rfl | ⟨hmiss, hcor⟩
          · rw [hh] at hnone
            cases hnone
          · exact hget
          · exact hget
          · rcases hmiss with rfl | rfl
            · exact hwrite fun blob => hcor h blob hh
            · exact hwrite fun blob => hcor h blob hh

theorem get_opens {E : Env} {c' : Cache κ β} (h : c.get K E ref collection = (.ok p, c')) :
    ∃ x blob, hashOf ref = some x ∧ K.sha256 p = x ∧ c'.files x = some blob ∧ c'.Opens K collection x blob := by
  rcases get_spec K c E ref collection with ⟨x, blob, q, b, hx, hb, hd, hsha, hget⟩ | ⟨e, _, hget, -⟩
  · rw [hget] at h
    obtain ⟨hq, rfl⟩ := Prod.mk.inj h
    obtain rfl := Except.ok.inj hq
    have ho : c.Opens K collection x blob := ⟨q, b, by rwa [← hashOf_eq_some hx], hsha⟩
    refine ⟨x, ?_⟩
    split_ifs
    · unfold rewriteShared
      split_ifs
      · refine ⟨_, hx, hsha, Function.update_self .., ?_⟩
        rw [hashOf_eq_some hx]
        exact opens_aesEncrypt List.mem_cons_self _ hsha
      · exact ⟨blob, hx, hsha, hb, ho⟩
    · exact ⟨blob, hx, hsha, hb, ho⟩
  · rw [hget] at h
    cases (Prod.mk.inj h).1

theorem put_opens {E : Env} {durable : Option (String → Bool)} {plain : Bytes} {b : Bool} {c' : Cache κ β}
    (h : c.put K E durable ref plain collection = (.ok b, c')) :
    ∃ x blob, hashOf ref = some x ∧ K.sha256 plain = x ∧ c'.files x = some blob ∧ c'.Opens K collection x blob := by
  have hstore : ∀ {x} {c₀ : Cache κ β}, hashOf ref = some x → K.sha256 plain = x →
      c₀.store K E durable ref x plain = (.ok b, c') →
      ∃ x blob, hashOf ref = some x ∧ K.sha256 plain = x ∧ c'.files x = some blob ∧ c'.Opens K collection x blob := by
    intro x c₀ hx hsha hst
    obtain ⟨c₁, -, he | he⟩ := store_spec K c₀ E durable ref x plain <;> rw [he] at hst
    · obtain ⟨-, rfl⟩ := Prod.mk.inj hst
      refine ⟨x, _, hx, hsha, Function.update_self .., ?_⟩
      rw [hashOf_eq_some hx]
      exact opens_aesEncrypt List.mem_cons_self _ hsha
    · cases (Prod.mk.inj hst).1
  unfold put at h
  split at h
  · cases (Prod.mk.inj h).1
  · next x hx =>
    split_ifs at h with hsha
    · cases (Prod.mk.inj h).1
    · rw [not_not] at hsha
      split at h
      · exact hstore hx hsha h
      · split at h
        · next p c'' hget =>
          obtain ⟨-, rfl⟩ := Prod.mk.inj h
          obtain ⟨x', blob, hx', -, hb, ho⟩ := get_opens hget
          rw [hx] at hx'
          obtain rfl := Option.some.inj hx'
          exact ⟨x, blob, hx, hsha, hb, ho⟩
        · cases (Prod.mk.inj h).1
        · cases (Prod.mk.inj h).1
        · exact hstore hx hsha h

theorem Becomes.opens {c' : Cache κ β} {why : String → β → Prop} {collection' : String}
    (hbec : c.Becomes K collection' why c') {blob : β} (hb : c.files h = some blob)
    (ho : c.Opens K collection h blob) :
    (∃ blob', c'.files h = some blob' ∧ c'.Opens K collection h blob') ∨ why h blob := by
  obtain ⟨c₁, hd, hc⟩ := hbec
  have hopens : ∀ {x}, c.Opens K collection h x → c₁.Opens K collection h x := by
    rintro x ⟨p, b, hp, hsha⟩
    exact ⟨p, b, by rwa [hd.decrypt K], hsha⟩
  have hsame : (∃ blob', c₁.files h = some blob' ∧ c₁.Opens K collection h blob') ∨ why h blob := by
    rcases hd.files h with he | ⟨-, blob', hb', hw⟩
    · exact .inl ⟨blob, he.trans hb, hopens ho⟩
    · rw [hb] at hb'
      exact .inr (Option.some.inj hb' ▸ hw)
  rcases hc with rfl | ⟨x, n, p, hp, rfl, -⟩
  · exact hsame
  · by_cases hx : h = x
    · subst hx
      refine .inl ⟨_, Function.update_self .., ?_⟩
      exact opens_aesEncrypt List.mem_cons_self n hp
    · refine hsame.imp ?_ id
      rintro ⟨blob', hb', p', b', hp', hsha⟩
      exact ⟨blob', (Function.update_of_ne hx _ _).trans hb', p', b', hp', hsha⟩

theorem Becomes.changed {c' : Cache κ β} {why : String → β → Prop} (hbec : c.Becomes K collection why c') {blob : β}
    (hb : c.files h = some blob) (hne : c'.files h ≠ some blob) :
    why h blob ∨ ∃ nonce p b, c.decrypt K blob (casPrefix ++ h) collection = .ok (p, b) ∧ K.sha256 p = h ∧
      c'.files h = some (K.aesEncrypt nonce c.key (casPrefix ++ h) p) := by
  obtain ⟨c₁, hd, hc⟩ := hbec
  have hsame : c₁.files h ≠ some blob → why h blob := by
    intro hne
    rcases hd.files h with he | ⟨-, blob', hb', hw⟩
    · exact absurd (he.trans hb) hne
    · rw [hb] at hb'
      exact Option.some.inj hb' ▸ hw
  rcases hc with rfl | ⟨x, n, p, hp, rfl, hr⟩
  · exact .inl (hsame hne)
  · by_cases hx : h = x
    · subst hx
      refine (hr blob hb).imp id ?_
      rintro ⟨b, hdec⟩
      refine ⟨n, p, b, hdec, hp, ?_⟩
      rw [← hd.key]
      exact Function.update_self ..
    · rw [show (c₁.write x (K.aesEncrypt n c₁.key (casPrefix ++ x) p)).files h = c₁.files h from
        Function.update_of_ne hx _ _] at hne
      exact .inl (hsame hne)

end Cache

end Content

end Mantle
