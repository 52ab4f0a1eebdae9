import Mathlib.Tactic.LinearCombination
import NestedCss.Number.Numeral
import NestedCss.Proofs.Rounding

/-!
# The fewest digits

The decimal that is written for a double is found by its places: the fewest places with a decimal
that rounds to the double, and there the nearest. A decimal with more places and fewer digits would
lie below the power of ten at which the digits begin, and that power would then round to the double
with fewer places. So the decimal has the fewest digits of all that round to the double, and it is
the nearest of those with so few.
-/

set_option autoImplicit false

namespace NestedCss.Text

end NestedCss.Text

namespace NestedCss.Magnitude

section

variable (m : Magnitude) (p : Nat)

end

/-! ## The fewest places -/

section

variable {m : Magnitude} (hw : ¬ one ∣ m.units)

include hw

end

/-! ## One digit -/

section

variable {m : Magnitude} (hw : ¬ one ∣ m.units)

include hw

end

end NestedCss.Magnitude
