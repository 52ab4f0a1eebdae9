import NestedCss.Number.Double

/-!
# Shortest decimals

Among the decimals that round to a magnitude, those with the fewest places behind the point, and of
these the nearest. A decimal rounds to a magnitude when it lies between the midpoints to both
neighbours; the midpoints themselves do when the significand is even. All is compared exactly.
-/

set_option autoImplicit false

namespace NestedCss.Magnitude

/-- Whether the neighbour below is only half as far away as the one above. -/
def isNarrow (m : Magnitude) : Bool := m.shift != 0 && m.significand == 1 <<< 52

/-- The midpoints to both neighbours, in quarters of the gap above. -/
def lowEnd (m : Magnitude) : Nat := 4 * m.significand - if m.isNarrow then 1 else 2

def highEnd (m : Magnitude) : Nat := 4 * m.significand + 2

/-- Whether the decimal with these digits and places rounds to the magnitude. -/
def readsBack (m : Magnitude) (places digits : Nat) : Bool :=
  let low := (m.lowEnd <<< m.shift) * Nat.pow 10 places
  let high := (m.highEnd <<< m.shift) * Nat.pow 10 places
  let here := 4 * digits * one
  if m.significand % 2 = 0 then low ≤ here && here ≤ high else low < here && here < high

/-- The greatest decimal with so many places that is not above the magnitude. -/
def floorDigits (m : Magnitude) (places : Nat) : Nat := m.units * Nat.pow 10 places / one

/-- The nearer of two neighbouring decimals, the lower of which is given; in the middle the even
one. -/
def nearer (m : Magnitude) (places digits : Nat) : Nat :=
  match compare (2 * (m.units * Nat.pow 10 places)) ((2 * digits + 1) * one) with
  | .lt => digits
  | .gt => digits + 1
  | .eq => if digits % 2 = 0 then digits else digits + 1

/-- The digits with so many places that round to the magnitude, if there are any. -/
def digitsWith (m : Magnitude) (places : Nat) : Option Nat :=
  let d := m.floorDigits places
  match m.readsBack places d, m.readsBack places (d + 1) with
  | true, true => some (m.nearer places d)
  | true, false => some d
  | false, true => some (d + 1)
  | false, false => none

structure Decimal where
  digits : Nat
  places : Nat
  deriving DecidableEq, Repr

/-- The magnitude itself, which always has 1074 places. -/
def exact (m : Magnitude) : Decimal := ⟨m.floorDigits 1074, 1074⟩

def shortest (m : Magnitude) : Decimal :=
  ((List.range 1074).findSome? fun places =>
    (m.digitsWith places).map fun d => (⟨d, places⟩ : Decimal)).getD m.exact

end NestedCss.Magnitude
