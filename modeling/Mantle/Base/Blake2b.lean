import Mathlib.Data.List.Basic
import Mathlib.Data.Nat.Bitwise

/-!
# Mantle.Base.Blake2b — the BLAKE2b hash function, unkeyed, with a chosen digest size

Bytes and 64-bit words are natural numbers.  The parameter block is the sequential one (fanout 1, depth 1, no key).
-/

namespace Mantle.Blake2b

def wordMod : ℕ := 2 ^ 64

def add (a b : ℕ) : ℕ := (a + b) % wordMod

/-- Rotate a word right by `k` bits. -/
def rotr (x k : ℕ) : ℕ := (x >>> k) ||| ((x <<< (64 - k)) % wordMod)

def iv : List ℕ :=
  [0x6a09e667f3bcc908, 0xbb67ae8584caa73b, 0x3c6ef372fe94f82b, 0xa54ff53a5f1d36f1,
   0x510e527fade682d1, 0x9b05688c2b3e6c1f, 0x1f83d9abfb41bd6b, 0x5be0cd19137e2179]

/-- The message schedule of the twelve rounds. -/
def sigma : List (List ℕ) :=
  [[0, 1, 2, 3, 4, 5, 6, 7, 8, 9, 10, 11, 12, 13, 14, 15],
   [14, 10, 4, 8, 9, 15, 13, 6, 1, 12, 0, 2, 11, 7, 5, 3],
   [11, 8, 12, 0, 5, 2, 15, 13, 10, 14, 3, 6, 7, 1, 9, 4],
   [7, 9, 3, 1, 13, 12, 11, 14, 2, 6, 5, 10, 4, 0, 15, 8],
   [9, 0, 5, 7, 2, 4, 10, 15, 14, 1, 11, 12, 6, 8, 3, 13],
   [2, 12, 6, 10, 0, 11, 8, 3, 4, 13, 7, 5, 15, 14, 1, 9],
   [12, 5, 1, 15, 14, 13, 4, 10, 0, 7, 6, 3, 9, 2, 8, 11],
   [13, 11, 7, 14, 12, 1, 3, 9, 5, 0, 15, 4, 8, 6, 2, 10],
   [6, 15, 14, 9, 11, 3, 0, 8, 12, 2, 13, 7, 1, 4, 10, 5],
   [10, 2, 8, 4, 7, 6, 1, 5, 15, 11, 9, 14, 3, 12, 13, 0],
   [0, 1, 2, 3, 4, 5, 6, 7, 8, 9, 10, 11, 12, 13, 14, 15],
   [14, 10, 4, 8, 9, 15, 13, 6, 1, 12, 0, 2, 11, 7, 5, 3]]

/-- The mixing function on four words of the working vector. -/
def g (v : List ℕ) (a b c d x y : ℕ) : List ℕ :=
  let va := add (add (v.getD a 0) (v.getD b 0)) x
  let vd := rotr (v.getD d 0 ^^^ va) 32
  let vc := add (v.getD c 0) vd
  let vb := rotr (v.getD b 0 ^^^ vc) 24
  let va := add (add va vb) y
  let vd := rotr (vd ^^^ va) 16
  let vc := add vc vd
  let vb := rotr (vb ^^^ vc) 63
  (((v.set a va).set b vb).set c vc).set d vd

def round (m v s : List ℕ) : List ℕ :=
  let q := fun i => m.getD (s.getD i 0) 0
  let v := g v 0 4 8 12 (q 0) (q 1)
  let v := g v 1 5 9 13 (q 2) (q 3)
  let v := g v 2 6 10 14 (q 4) (q 5)
  let v := g v 3 7 11 15 (q 6) (q 7)
  let v := g v 0 5 10 15 (q 8) (q 9)
  let v := g v 1 6 11 12 (q 10) (q 11)
  let v := g v 2 7 8 13 (q 12) (q 13)
  g v 3 4 9 14 (q 14) (q 15)

/-- Fold one message block into the chaining value; `t` counts the bytes hashed so far. -/
def compress (h m : List ℕ) (t : ℕ) (last : Bool) : List ℕ :=
  let v := h ++ iv
  let v := v.set 12 (v.getD 12 0 ^^^ (t % wordMod))
  let v := v.set 13 (v.getD 13 0 ^^^ (t / wordMod))
  let v := if last then v.set 14 (v.getD 14 0 ^^^ (wordMod - 1)) else v
  let v := sigma.foldl (round m) v
  List.zipWith (· ^^^ ·) h (List.zipWith (· ^^^ ·) (v.take 8) (v.drop 8))

def leWord (bs : List ℕ) : ℕ := bs.foldr (fun b acc => b + 256 * acc) 0

def words : ℕ → List ℕ → List ℕ
  | 0, _ => []
  | n + 1, bs => leWord (bs.take 8) :: words n (bs.drop 8)

/-- Each block but the last takes 128 bytes, so a fuel of one more than the number of bytes never runs out. -/
def blocks : ℕ → List ℕ → ℕ → List ℕ → List ℕ
  | 0, h, _, _ => h
  | fuel + 1, h, t, bs =>
    if bs.length ≤ 128 then
      compress h (words 16 (bs ++ List.replicate (128 - bs.length) 0)) (t + bs.length) true
    else
      blocks fuel (compress h (words 16 (bs.take 128)) (t + 128) false) (t + 128) (bs.drop 128)

/-- The `n` low bytes of a number, least significant first. -/
def leBytes : ℕ → ℕ → List ℕ
  | 0, _ => []
  | n + 1, x => (x % 256) :: leBytes n (x / 256)

/-- The `n`-byte BLAKE2b digest of `bs`. -/
def hash (n : ℕ) (bs : List ℕ) : List ℕ :=
  let h0 := (iv.getD 0 0 ^^^ (0x01010000 + n)) :: iv.drop 1
  ((blocks (bs.length + 1) h0 0 bs).flatMap (leBytes 8)).take n

/-- A number from its bytes, most significant first. -/
def beNat (bs : List ℕ) : ℕ := bs.foldl (fun acc b => acc * 256 + b) 0

/-! ### The digest is a byte string of the chosen size -/

theorem leBytes_lt : ∀ (n x : ℕ), ∀ b ∈ leBytes n x, b < 256
  | 0, _, b, h => by simp [leBytes] at h
  | n + 1, x, b, h => by
    rw [leBytes, List.mem_cons] at h
    rcases h with rfl | h
    · exact Nat.mod_lt _ (by decide)
    · exact leBytes_lt n (x / 256) b h

theorem hash_lt (n : ℕ) (bs : List ℕ) : ∀ b ∈ hash n bs, b < 256 := by
  intro b hb
  obtain ⟨w, -, hw⟩ := List.mem_flatMap.mp (List.mem_of_mem_take hb)
  exact leBytes_lt 8 w b hw

theorem foldl_be_lt (acc k : ℕ) : ∀ (bs : List ℕ), (∀ b ∈ bs, b < 256) → acc < 256 ^ k →
    bs.foldl (fun acc b => acc * 256 + b) acc < 256 ^ (k + bs.length)
  | [], _, h => by simpa using h
  | b :: bs, hb, h => by
    have hb0 : b < 256 := hb b (by simp)
    have hstep : acc * 256 + b < 256 ^ (k + 1) := by
      rw [pow_succ]
      omega
    have := foldl_be_lt (acc * 256 + b) (k + 1) bs (fun c hc => hb c (by simp [hc])) hstep
    simpa [add_assoc, add_comm, add_left_comm] using this

theorem beNat_hash_lt (n : ℕ) (bs : List ℕ) : beNat (hash n bs) < 256 ^ n := by
  have h := foldl_be_lt 0 0 (hash n bs) (hash_lt n bs) (by simp)
  refine lt_of_lt_of_le h (Nat.pow_le_pow_right (by decide) ?_)
  simp only [hash, zero_add]
  exact List.length_take_le _ _

example : beNat (hash 8 [97, 98, 99]) = 15617099051652453721 := by decide +kernel

-- proofs treat the hash as opaque; only evaluation looks inside
attribute [irreducible] hash

end Mantle.Blake2b
