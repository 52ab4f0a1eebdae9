import NestedCss.Text.Basic

/-!
# Digits

Whole numbers as text.
-/

set_option autoImplicit false

namespace NestedCss.Text

/-- Digits with zeros in front up to a width. -/
def padded (width : Nat) (digits : Text) : Text :=
  List.replicate (width - digits.length) '0' ++ digits

def natural (n : Nat) : Text := Nat.toDigits 10 n

def signed (negative : Bool) (t : Text) : Text := if negative then '-' :: t else t

def integer (n : Int) : Text := signed (n < 0) (natural n.natAbs)

end NestedCss.Text
