import NestedCss.Datum
import NestedCss.Number.Shortest

/-!
# Numerals

Numbers as they are written into css, where no exponent is allowed. A whole number is written
exactly and zero has no sign; any other double is written by its shortest decimal.
-/

set_option autoImplicit false

namespace NestedCss

/-- The decimal with its point in place. -/
def Magnitude.Decimal.positional (d : Magnitude.Decimal) : Text :=
  Text.natural (d.digits / Nat.pow 10 d.places) ++
    if d.places = 0 then []
    else '.' :: Text.padded d.places (Text.natural (d.digits % Nat.pow 10 d.places))

def Double.text : Double → Text
  | .nan => "NaN".toList
  | .infinite negative => Text.signed negative "Infinity".toList
  | .finite negative m =>
    if m.isWhole then
      Text.signed (negative && m.units != 0) (Text.natural (m.units / Magnitude.one))
    else Text.signed negative m.shortest.positional

inductive Numeral where
  | int (n : Int)
  | double (x : Double)
  | bool (b : Bool)
  deriving DecidableEq, Repr

def Numeral.text : Numeral → Text
  | .int n => Text.integer n
  | .double x => x.text
  | .bool b => Datum.boolean b

end NestedCss
