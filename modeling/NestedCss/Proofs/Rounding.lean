import Mathlib.Algebra.Order.Ring.Abs
import Mathlib.Data.Rat.Cast.Order
import Mathlib.Tactic.FieldSimp
import Mathlib.Tactic.Linarith
import Mathlib.Tactic.Positivity
import Mathlib.Tactic.Ring
import NestedCss.Number.Shortest

/-!
# Rounding to a double

A number rounds to the double that is nearest, and halfway to the one with the even significand.
The numbers that round to a magnitude lie between the midpoints to its neighbours. Halfway between
two neighbours one of them is even and the other odd, so no number rounds to two doubles.
-/

set_option autoImplicit false

namespace NestedCss.Magnitude

/-- The value of a magnitude. -/
def value (m : Magnitude) : ℚ := m.units / one

/-- A number with a sign. -/
def signed (negative : Bool) (q : ℚ) : ℚ := if negative then -q else q

/-- The distance to the neighbour below, in halves of the one above. -/
def below (m : Magnitude) : Nat := if m.isNarrow then 1 else 2

/-- The distance to the neighbour above. -/
def gap (m : Magnitude) : ℚ := ((2 ^ m.shift : ℕ) : ℚ) / one

def low (m : Magnitude) : ℚ := ((m.lowEnd <<< m.shift : ℕ) : ℚ) / (4 * one)

def high (m : Magnitude) : ℚ := ((m.highEnd <<< m.shift : ℕ) : ℚ) / (4 * one)

/-- The number lies between the midpoints to the neighbours; a midpoint counts for an even
significand. -/
def Within (m : Magnitude) (q : ℚ) : Prop :=
  if m.significand % 2 = 0 then m.low ≤ q ∧ q ≤ m.high else m.low < q ∧ q < m.high

/-- What lies between numbers within the midpoints lies within them. -/
theorem Within.between {m : Magnitude} {a b q : ℚ} (ha : m.Within a) (hb : m.Within b)
    (haq : a ≤ q) (hqb : q ≤ b) : m.Within q := by
  unfold Within at ha hb ⊢
  split
  · next he =>
    rw [if_pos he] at ha hb
    exact ⟨ha.1.trans haq, hqb.trans hb.2⟩
  · next he =>
    rw [if_neg he] at ha hb
    exact ⟨ha.1.trans_le haq, hqb.trans_lt hb.2⟩

section

variable {x y q : ℚ}

end

end NestedCss.Magnitude
