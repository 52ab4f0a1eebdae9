/-!
# Doubles

The values of the binary format of 64 bits. A finite magnitude is a significand of at most 53 bits
times a power of two, counted in the smallest positive value, `2 ^ -1074`. Only the magnitudes with
no shift may have a shorter significand, so each value has one form.
-/

set_option autoImplicit false

namespace NestedCss

structure Magnitude where
  significand : Nat
  shift : Nat
  significand_lt : significand < 1 <<< 53
  shift_le : shift ≤ 2045
  normal : shift = 0 ∨ 1 <<< 52 ≤ significand
  deriving DecidableEq, Repr

namespace Magnitude

/-- One, counted in the smallest positive value. -/
def one : Nat := 1 <<< 1074

/-- The magnitude counted in the smallest positive value. -/
def units (m : Magnitude) : Nat := m.significand <<< m.shift

def isWhole (m : Magnitude) : Bool := m.units % one == 0

end Magnitude

inductive Double where
  | nan
  | infinite (negative : Bool)
  | finite (negative : Bool) (m : Magnitude)
  deriving DecidableEq, Repr

namespace Double

/-- The magnitude with a field of 52 bits and an exponent field below the last. -/
def magnitude (fraction exponent : Nat) (hf : fraction < 1 <<< 52) (he : exponent < 2047) :
    Magnitude :=
  if h : exponent = 0 then ⟨fraction, 0, by omega, by omega, Or.inl rfl⟩
  else ⟨(1 <<< 52) + fraction, exponent - 1, by omega, by omega, Or.inr (by omega)⟩

def ofBits (bits : UInt64) : Double :=
  let n := bits.toNat
  let negative := n >>> 63 == 1
  if h : (n >>> 52) % 2048 < 2047 then
    .finite negative
      (magnitude (n % (1 <<< 52)) ((n >>> 52) % 2048) (Nat.mod_lt _ (by decide)) h)
  else if n % (1 <<< 52) = 0 then .infinite negative
  else .nan

end Double

end NestedCss
