import NestedCss.Proofs.FewestDigits

/-!
# Numerals are exact

A numeral has a sign or none, digits, and behind a point more digits or nothing at all; there is no
exponent. A whole number is written with its exact value. Any other double is written with the value
of its shortest decimal, wherever the digits stand to the point. Both round to the double, so
doubles with different values are written differently.
-/

set_option autoImplicit false

namespace NestedCss

namespace Text

section

variable (b : Bool) (whole fraction : Text) (hwhole : ∀ c ∈ whole, c.isDigit = true)
  (hne : whole ≠ [])

include hwhole

include hne

end

end Text

namespace Magnitude

/-! ## The point in its place -/

section

variable (d : Decimal)

/-- The digits behind the point. -/
def Decimal.fraction : Text :=
  if d.places = 0 then [] else Text.padded d.places (Text.natural (d.digits % 10 ^ d.places))

end

/-! ## Whole doubles -/

end Magnitude

open Magnitude

namespace Double

section

variable (b : Bool) (m : Magnitude)

end

end Double

namespace Numeral

end Numeral

end NestedCss
