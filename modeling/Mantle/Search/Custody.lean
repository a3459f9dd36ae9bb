import Mantle.Access.Graph
import Mantle.Db.Authored

/-!
# Mantle.Search.Custody — the master key store over the lattice (`search/mantle/oracle.py`)

A master key is stored wrapped by the key provider, framed with the principal it belongs to.
-/

namespace Mantle

open Tx

abbrev Bytes := List UInt8

/-- The KEK provider.  A nonce stands for the randomness of a wrap; an `unwrap` that raises is `none`. -/
structure KeyProvider where
  wrap : ℕ → Bytes → String
  unwrap : Val → Option Bytes
  opens : ∀ nonce raw, unwrap (.str (wrap nonce raw)) = some raw
  nonempty : ∀ nonce raw, wrap nonce raw ≠ ""
  /-- What `decode("utf-8", "replace")` makes of bytes that are no UTF-8. -/
  replaced : Bytes → String

inductive KeyErr
  | masterKeyUnavailable
  | masterKeyMissing
  | runtimeError
  | valueError
deriving DecidableEq, Repr

/-! ### Frames -/

def encodeUtf8 (s : String) : Bytes := s.toUTF8.data.toList

def KeyProvider.decodeUtf8 (K : KeyProvider) (bs : Bytes) : String :=
  (String.fromUTF8? ⟨bs.toArray⟩).getD (K.replaced bs)

theorem decodeUtf8_encodeUtf8 (K : KeyProvider) (s : String) : K.decodeUtf8 (encodeUtf8 s) = s := by
  have h : (⟨(encodeUtf8 s).toArray⟩ : ByteArray) = s.toUTF8 := rfl
  unfold KeyProvider.decodeUtf8
  rw [h, String.fromUTF8?, String.toUTF8_eq_toByteArray, dif_pos s.isValidUTF8]
  rfl

/-- A magic, the length of the principal in two bytes, the principal. -/
def frameHead (magic : Bytes) (p : String) : Except KeyErr Bytes :=
  if (encodeUtf8 p).length > 0xFFFF then .error .valueError
  else
    .ok (magic ++ [UInt8.ofNat ((encodeUtf8 p).length / 256), UInt8.ofNat ((encodeUtf8 p).length % 256)] ++
      encodeUtf8 p)

def KeyProvider.frameBody (K : KeyProvider) (p : String) (raw : Bytes) : Except KeyErr Bytes :=
  let n := (raw.getD 4 0).toNat * 256 + (raw.getD 5 0).toNat
  if K.decodeUtf8 ((raw.drop 6).take n) ≠ p then .error .masterKeyUnavailable else .ok (raw.drop (6 + n))

def mkMagic : Bytes := [77, 75, 49, 58]

def frameMasterKey (p : String) (dek : Bytes) : Except KeyErr Bytes := (frameHead mkMagic p).map (· ++ dek)

/-- `_unframe_master_key`: a payload without a frame is a key from before there were frames. -/
def KeyProvider.unframeMasterKey (K : KeyProvider) (p : String) (raw : Bytes) : Except KeyErr Bytes :=
  if ¬mkMagic <+: raw then .ok raw else K.frameBody p raw

theorem frameBody_frameHead (K : KeyProvider) {magic : Bytes} (hm : magic.length = 4) {p : String} {head : Bytes}
    (h : frameHead magic p = .ok head) (q : String) (rest : Bytes) :
    K.frameBody q (head ++ rest) = if q = p then .ok rest else .error .masterKeyUnavailable := by
  unfold frameHead at h
  split_ifs at h with hlen
  cases h
  obtain ⟨a, b, c, d, rfl⟩ : ∃ a b c d, magic = [a, b, c, d] := by
    match magic, hm with
    | [a, b, c, d], _ => exact ⟨a, b, c, d, rfl⟩
  have hn : (UInt8.ofNat ((encodeUtf8 p).length / 256)).toNat * 256 +
      (UInt8.ofNat ((encodeUtf8 p).length % 256)).toNat = (encodeUtf8 p).length := by
    rw [UInt8.toNat_ofNat', UInt8.toNat_ofNat']
    omega
  unfold KeyProvider.frameBody
  simp only [List.cons_append, List.nil_append, List.getD_cons_succ, List.getD_cons_zero,
    List.drop_succ_cons, List.drop_zero, hn, List.take_left, decodeUtf8_encodeUtf8]
  rw [Nat.add_comm 6, List.drop_succ_cons, List.drop_succ_cons, List.drop_succ_cons, List.drop_succ_cons,
    List.drop_succ_cons, List.drop_succ_cons, List.drop_left]
  by_cases hq : q = p
  · rw [if_pos hq, if_neg (not_not.mpr hq.symm)]
  · rw [if_neg hq, if_pos (Ne.symm hq)]

theorem prefix_frameHead {magic : Bytes} {p : String} {head : Bytes} (h : frameHead magic p = .ok head) (rest : Bytes) :
    magic <+: head ++ rest := by
  unfold frameHead at h
  split_ifs at h
  cases h
  simp only [List.append_assoc]
  exact List.prefix_append _ _

theorem unframe_frame (K : KeyProvider) {p : String} {dek raw : Bytes} (h : frameMasterKey p dek = .ok raw) :
    K.unframeMasterKey p raw = .ok dek := by
  obtain ⟨head, hhead, rfl⟩ := map_ok h
  unfold KeyProvider.unframeMasterKey
  rw [if_neg (not_not.mpr (prefix_frameHead hhead dek)), frameBody_frameHead K rfl hhead, if_pos rfl]

/-! ### `LatticeMasterKeyStore` -/

def shareContentType : String := "application/vnd.agience.master-key-share+json"
def masterKeyContentType : String := "application/vnd.agience.master-key+json"

def masterKeyId (p : String) : String := "master-key:" ++ p

/-- `get`: `none` is first use. -/
def KeyProvider.getKey (K : KeyProvider) (db : Store) (p : String) : Except KeyErr (Option Bytes) :=
  match docOf db (masterKeyId p) with
  | none => .ok none
  | some doc =>
    if (doc.get "content_type").eqStr shareContentType then .error .masterKeyUnavailable
    else if !(doc.get "content_type").eqStr masterKeyContentType then .ok none
    else if !(doc.get "token").truthy then .ok none
    else
      match K.unwrap (doc.get "token") with
      | none => .error .masterKeyUnavailable
      | some raw => (K.unframeMasterKey p raw).map some

def masterKeyDoc (p token : String) : Doc :=
  [("id", .str (masterKeyId p)), ("content_type", .str masterKeyContentType), ("token", .str token)]

/-- `put`: the node after it, and whether it returned. -/
def KeyProvider.putKey (K : KeyProvider) (nonce : ℕ) (n : Node) (p : String) (key : Bytes) : Bool × Node :=
  match frameMasterKey p key with
  | .error _ => (false, n)
  | .ok raw =>
    match putArtifact (masterKeyDoc p (K.wrap nonce raw)) true false n with
    | .ok _ n' => (true, n')
    | .error _ n' => (false, n')

theorem DocStored.docOf {doc : Doc} {id : String} {db db' : Store} (h : DocStored doc id db db')
    (hid : doc.get "id" = .str id) : ∃ d, docOf db' id = some d ∧
      ∀ k ∉ stampKeys, ∀ s, doc.get k = .str s → d.get k = .str s := by
  obtain ⟨r, hr, -, hfields⟩ := h.row
  have hread : ∀ k ∉ stampKeys, ∀ s, doc.get k = .str s → r.doc.val.get k = .str s := by
    intro k hk s hs
    unfold Doc.get at hs ⊢
    rw [hfields k hk]
    cases hf : doc.find? k with
    | none =>
      rw [hf] at hs
      cases hs
    | some v =>
      rw [hf] at hs
      simp only [Option.getD_some] at hs
      subst hs
      rfl
  refine ⟨r.doc.val, ?_, hread⟩
  unfold Mantle.docOf
  rw [hr]
  have hne : r.doc.val ≠ [] := by
    intro hnil
    have := hread "id" (by decide) id hid
    rw [hnil] at this
    cases this
  simp [hne]

/-- **What `put` leaves.** -/
theorem putKey_spec (K : KeyProvider) (nonce : ℕ) {n : Node} (hi : n.inTxn = false) (p : String) (key : Bytes) :
    (K.putKey nonce n p key).2.inTxn = false ∧
    (((K.putKey nonce n p key).1 = true ∧ K.getKey (K.putKey nonce n p key).2.db p = .ok (some key)) ∨
      ((K.putKey nonce n p key).1 = false ∧ SameTables n.db (K.putKey nonce n p key).2.db)) := by
  unfold KeyProvider.putKey
  cases hf : frameMasterKey p key with
  | error e => exact ⟨hi, .inr ⟨rfl, SameTables.refl _⟩⟩
  | ok raw =>
    dsimp only
    have hrun := @putAuthored_stored (masterKeyDoc p (K.wrap nonce raw)) rfl rfl _ hi
    cases hr : putArtifact (masterKeyDoc p (K.wrap nonce raw)) true false n with
    | error e n' =>
      obtain ⟨hs, hin⟩ := hrun.error hr
      exact ⟨hin, .inr ⟨rfl, hs⟩⟩
    | ok d n' =>
      obtain ⟨⟨id, hid, hst⟩, hin⟩ := hrun.ok hr
      refine ⟨hin, .inl ⟨rfl, ?_⟩⟩
      have hid' : masterKeyId p = id := by
        have : Val.str (masterKeyId p) = .str id := hid
        cases this
        rfl
      subst hid'
      obtain ⟨d', hd', hread⟩ := hst.docOf hid
      unfold KeyProvider.getKey
      rw [hd']
      dsimp only
      rw [hread "content_type" (by decide) masterKeyContentType rfl, hread "token" (by decide) _ rfl, K.opens]
      have hct : (Val.str masterKeyContentType).eqStr shareContentType = false := by decide
      have hct' : (Val.str masterKeyContentType).eqStr masterKeyContentType = true := by decide
      simp only [hct, hct', Bool.false_eq_true, if_false, Bool.not_true, Val.truthy_str, ne_eq, K.nonempty,
        not_false_eq_true, decide_true]
      rw [unframe_frame K hf]
      rfl

theorem getKey_sameTables (K : KeyProvider) {db db' : Store} (h : SameTables db db') (p : String) :
    K.getKey db' p = K.getKey db p := by
  unfold KeyProvider.getKey docOf
  rw [h.vertex]

def plainProvider : KeyProvider where
  wrap _ raw := "k" ++ String.ofList (raw.map fun b => Char.ofNat b.toNat)
  unwrap
    | .str s => some (s.toList.tail.map fun c => UInt8.ofNat c.toNat)
    | _ => none
  opens := by
    intro _ raw
    have hb : ∀ b : UInt8, UInt8.ofNat (Char.ofNat b.toNat).toNat = b := by
      intro b
      have hv : b.toNat.isValidChar := Or.inl (lt_trans b.toNat_lt (by decide))
      rw [Char.ofNat, dif_pos hv]
      exact UInt8.ofNat_toNat
    simp [String.toList_append, Function.comp_def, hb]
  nonempty := by
    intro _ raw h
    have := congrArg String.length h
    simp at this
  replaced _ := ""

def keyNode : Node := hereNode

end Mantle
