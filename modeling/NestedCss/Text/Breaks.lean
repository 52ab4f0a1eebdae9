import NestedCss.Text.Basic

/-!
# Line breaks

A carriage return with a line feed, a carriage return alone and a form feed are each one line feed.
-/

set_option autoImplicit false

namespace NestedCss.Text

def unifyBreaks : Text → Text
  | '\r' :: '\n' :: r => '\n' :: unifyBreaks r
  | c :: r => (if c == '\r' || c == '\x0c' then '\n' else c) :: unifyBreaks r
  | [] => []

end NestedCss.Text
