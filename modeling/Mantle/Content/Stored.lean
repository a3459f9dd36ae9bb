import Mantle.Db.Boundary

/-!
# Mantle.Content.Stored — bytes put under an address and read back (`services/content_service.py`)

The envelope goes to the local tier under its own address and to the object store under the artifact's content key; a
read asks the local tier first.
-/

namespace Mantle

def casRefFor (sha256 : String → String) (blob : String) : String := "cas/" ++ sha256 blob

def isCasRef : Val → Bool
  | .str r =>
    "cas/".toList.isPrefixOf r.toList && (r.toList.drop 4).length == 64 &&
      (r.toList.drop 4).all fun c => c ∈ "0123456789abcdef".toList
  | _ => false

structure PutTiers where
  /-- `encrypt_content`; `none` is an exception. -/
  envelope : Option String
  /-- There is no local tier, or whether its write goes through. -/
  localTier : Option Bool
  /-- There is no object store, or whether its write goes through. -/
  objectStore : Option Bool

def storeUnavailable : PyErr := .runtimeError "nothing on this node can store the content"

def storeRefused : PyErr := .runtimeError "the object store did not take the content"

/-- What goes to the tiers: without an owner there is no envelope. -/
def PutTiers.body (T : PutTiers) (data : String) (owner : Val) : Except PyErr String :=
  if owner.truthy then
    match T.envelope with
    | some blob => .ok blob
    | none => .error encryptError
  else .ok data

/-- `put_bytes_encrypted`: the address, and the object that was written. -/
def putBytesEncrypted (sha256 : String → String) (T : PutTiers) (data : String) (owner : Val) :
    Except PyErr (Option String × Option String) :=
  (T.body data owner).bind fun body =>
    let ref := if owner.truthy && T.localTier == some true then some (casRefFor sha256 body) else none
    match T.objectStore with
    | none => if ref.isNone then .error storeUnavailable else .ok (ref, none)
    | some true => .ok (ref, some body)
    | some false => if ref.isNone then .error storeRefused else .ok (ref, none)

structure ReadTiers where
  localTier : Option (String → Option String)
  objectStore : Option (String → Option String)

/-- `get_bytes_decrypted`, where an envelope is opened for an owner in a scope; `none` is an exception. -/
def getBytesDecrypted (openEnvelope : Val → Val → String → Option String) (T : ReadTiers)
    (contentKey owner ref scope : Val) : Option String :=
  let held := if ref.truthy && owner.truthy && isCasRef ref then T.localTier.bind fun l => l ref.pyStr else none
  match held with
  | some blob => openEnvelope owner scope blob
  | none =>
    if contentKey.truthy && owner.truthy then
      (T.objectStore.bind fun objects => objects contentKey.pyStr).bind (openEnvelope owner scope)
    else none

theorem getBytesDecrypted_cases {openEnvelope : Val → Val → String → Option String} {T : ReadTiers}
    {contentKey owner ref scope : Val} {t : String}
    (h : getBytesDecrypted openEnvelope T contentKey owner ref scope = some t) :
    ∃ blob, openEnvelope owner scope blob = some t ∧
      ((∃ l, T.localTier = some l ∧ l ref.pyStr = some blob) ∨
        ∃ objects, T.objectStore = some objects ∧ objects contentKey.pyStr = some blob) := by
  unfold getBytesDecrypted at h
  dsimp only at h
  split at h
  · rename_i blob hheld
    split_ifs at hheld
    obtain ⟨l, hl, hblob⟩ := Option.bind_eq_some_iff.mp hheld
    exact ⟨blob, h, .inl ⟨l, hl, hblob⟩⟩
  · split_ifs at h
    obtain ⟨blob, hblob, hopen⟩ := Option.bind_eq_some_iff.mp h
    obtain ⟨objects, ho, hobj⟩ := Option.bind_eq_some_iff.mp hblob
    exact ⟨blob, hopen, .inr ⟨objects, ho, hobj⟩⟩

theorem putBytesEncrypted_ref {sha256 : String → String} {T : PutTiers} {data r : String} {owner : Val}
    {object : Option String} (h : putBytesEncrypted sha256 T data owner = .ok (some r, object)) :
    ∃ blob, T.envelope = some blob ∧ r = casRefFor sha256 blob := by
  unfold putBytesEncrypted PutTiers.body at h
  by_cases howner : owner.truthy = true
  · rw [if_pos howner] at h
    cases hblob : T.envelope with
    | none =>
      rw [hblob] at h
      cases h
    | some blob =>
      rw [hblob] at h
      refine ⟨blob, rfl, ?_⟩
      simp only [Except.bind, howner, Bool.true_and] at h
      split at h <;> split_ifs at h <;> simp_all
  · rw [if_neg howner] at h
    simp only [Except.bind, Bool.eq_false_iff.mpr howner, Bool.false_and, Bool.false_eq_true, if_false] at h
    split at h <;> simp_all

end Mantle
