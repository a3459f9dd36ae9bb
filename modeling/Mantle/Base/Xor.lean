import Mathlib.Algebra.Group.Pi.Basic
import Mathlib.Algebra.Group.Nat.Even
import Mathlib.Data.Nat.Bitwise

/-!
# Mantle.Base.Xor — natural numbers under exclusive or, as a group

`ℕ` under XOR is a commutative group of exponent two, so that "XOR the old value out and the new one in" is ordinary
cancellation.
-/

namespace Mantle

/-- A natural number whose addition is bitwise exclusive or. -/
@[ext] structure XorNat where
  val : ℕ
deriving DecidableEq

namespace XorNat

instance : Zero XorNat := ⟨⟨0⟩⟩
instance : Add XorNat := ⟨fun a b => ⟨a.val ^^^ b.val⟩⟩
instance : Neg XorNat := ⟨fun a => a⟩

@[simp] theorem zero_val : (0 : XorNat).val = 0 := rfl
@[simp] theorem add_val (a b : XorNat) : (a + b).val = a.val ^^^ b.val := rfl

theorem neg_eq (a : XorNat) : -a = a := rfl

instance : AddCommGroup XorNat where
  add_assoc a b c := XorNat.ext (Nat.xor_assoc a.val b.val c.val)
  zero_add a := XorNat.ext (Nat.zero_xor a.val)
  add_zero a := XorNat.ext (Nat.xor_zero a.val)
  add_comm a b := XorNat.ext (Nat.xor_comm a.val b.val)
  neg_add_cancel a := XorNat.ext (Nat.xor_self a.val)
  nsmul := nsmulRec
  zsmul := zsmulRec

theorem sub_eq_add (a b : XorNat) : a - b = a + b := by
  rw [sub_eq_add_neg, neg_eq]

end XorNat

/-- The digest function that holds `v` in bucket `l` and nothing elsewhere. -/
def xorAt (l v : ℕ) : ℕ → XorNat := Pi.single l ⟨v⟩

theorem xorAt_apply (l v l' : ℕ) : (xorAt l v l').val = if l' = l then v else 0 := by
  unfold xorAt
  by_cases h : l' = l
  · subst h
    simp
  · simp [h]

@[simp] theorem xorAt_zero (l : ℕ) : xorAt l 0 = 0 := by
  funext l'
  apply XorNat.ext
  simp [xorAt_apply]

theorem sub_xorAt (f : ℕ → XorNat) (l v : ℕ) : f - xorAt l v = f + xorAt l v := by
  funext l'
  exact XorNat.sub_eq_add _ _

end Mantle
