import Mantle.Search.Threshold

/-!
# Mantle.Search.Frames — what is framed for a principal (`oracle.py`, `threshold_custody.py`)

A frame of a key or of a share names its principal by its length and its bytes, and opens for nobody else.
-/

namespace Mantle

/-- `_frame_share` of any number: `bytes([x])` is of a byte. -/
def framePoint (p : String) (x : ℤ) (y : Bytes) : Except KeyErr Bytes :=
  if 0 ≤ x ∧ x < 256 then frameShare p x.toNat y else .error .valueError

variable {p q : String} {raw : Bytes}

theorem frameHead_ok (magic : Bytes) : (∃ head, frameHead magic p = .ok head) ↔ (encodeUtf8 p).length ≤ 0xFFFF := by
  unfold frameHead
  split_ifs with hlen
  · exact ⟨fun ⟨_, h⟩ => (by cases h), fun h => absurd h (by omega)⟩
  · exact ⟨fun _ => by omega, fun _ => ⟨_, rfl⟩⟩

theorem unframeMasterKey_framed (K : KeyProvider) (q : String) {key : Bytes} (h : frameMasterKey p key = .ok raw) :
    mkMagic <+: raw ∧ K.unframeMasterKey q raw = if q = p then .ok key else .error .masterKeyUnavailable := by
  obtain ⟨head, hhead, rfl⟩ := map_ok h
  have hpre := prefix_frameHead hhead key
  refine ⟨hpre, ?_⟩
  unfold KeyProvider.unframeMasterKey
  rw [if_neg (not_not.mpr hpre), frameBody_frameHead K rfl hhead]

theorem unframeShare_framed (K : KeyProvider) (q : String) {x : ℤ} {y : Bytes} (h : framePoint p x y = .ok raw) :
    shareMagic <+: raw ∧ K.unframeShare q raw = if q = p then some (x.toNat, y) else none := by
  unfold framePoint at h
  split_ifs at h with hx
  obtain ⟨head, hhead, rfl⟩ := map_ok h
  have hpre := prefix_frameHead hhead (UInt8.ofNat x.toNat :: y)
  have hbyte : (UInt8.ofNat x.toNat).toNat = x.toNat := by
    rw [UInt8.toNat_ofNat']
    omega
  refine ⟨hpre, ?_⟩
  unfold KeyProvider.unframeShare
  rw [if_neg (not_not.mpr hpre), frameBody_frameHead K rfl hhead]
  by_cases hq : q = p
  · simp only [if_pos hq, hbyte]
  · simp only [if_neg hq]

/-- **Key frames bind their principal.**  What is framed for `p` opens for `p` alone, and is nothing without a frame. -/
theorem frames_bind (K : KeyProvider) (p q : String) :
    (∀ key raw, frameMasterKey p key = .ok raw → mkMagic <+: raw ∧
      K.unframeMasterKey q raw = if q = p then .ok key else .error .masterKeyUnavailable) ∧
    (∀ x y raw, framePoint p x y = .ok raw → shareMagic <+: raw ∧
      K.unframeShare q raw = if q = p then some (x.toNat, y) else none) ∧
    (∀ key, (∃ raw, frameMasterKey p key = .ok raw) ↔ (encodeUtf8 p).length ≤ 0xFFFF) ∧
    ∀ x y, (∃ raw, framePoint p x y = .ok raw) ↔ (encodeUtf8 p).length ≤ 0xFFFF ∧ 0 ≤ x ∧ x < 256 := by
  refine ⟨fun key raw h => unframeMasterKey_framed K q h, fun x y raw h => unframeShare_framed K q h,
    fun key => ?_, fun x y => ?_⟩
  · rw [← frameHead_ok mkMagic]
    exact ⟨fun ⟨_, h⟩ => (map_ok h).imp fun _ h => h.1, fun ⟨head, h⟩ => ⟨head ++ key, by rw [frameMasterKey, h]; rfl⟩⟩
  · rw [← frameHead_ok shareMagic]
    unfold framePoint
    split_ifs with hx
    · exact ⟨fun ⟨_, h⟩ => ⟨(map_ok h).imp fun _ h => h.1, hx⟩,
        fun ⟨⟨head, h⟩, _⟩ => ⟨head ++ UInt8.ofNat x.toNat :: y, by rw [frameShare, h]; rfl⟩⟩
    · exact ⟨fun ⟨_, h⟩ => (by cases h), fun h => absurd h.2 hx⟩

theorem frames_bind_alice : plainProvider.unframeMasterKey "mallory"
    (mkMagic ++ [0, 5] ++ encodeUtf8 "alice" ++ [7]) = .error .masterKeyUnavailable :=
  ((frames_bind plainProvider "alice" "mallory").1 [7] _ rfl).2

end Mantle
