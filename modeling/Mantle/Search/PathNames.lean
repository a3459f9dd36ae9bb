import Mantle.Py.JsonRoundTrip
import Mantle.Search.Custody

/-!
# Mantle.Search.PathNames — an id as a file name (`sse/file_stores.py`)

The encoder spells the bytes of an id, and the decoder reads every such spelling back.  It also reads names the encoder
does not write: a character outside the alphabet stands for its own byte.
-/

namespace Mantle.PathNames

open Json

attribute [local instance (1100)] List.decidableBAll

/-- What `int` knows of characters outside ASCII: the decimal digits, and the blanks, which it strips. -/
structure Digits where
  decimal : Char → Option ℕ
  isSpace : Char → Bool

/-- `int(a + b, 16)`; `none` is a `ValueError`. -/
def Digits.int (D : Digits) (a b : Char) : Option ℤ :=
  let digit (c : Char) : Option ℕ := (hexVal c).or (D.decimal c)
  match digit a, digit b with
  | some x, some y => some (16 * x + y)
  | none, some y => if a = '-' then some (-y) else if a = '+' ∨ D.isSpace a then some y else none
  | some x, none => if D.isSpace b then some x else none
  | none, none => none

variable {D : Digits}

end Mantle.PathNames
