import NestedCss.Text.Digits
import NestedCss.Text.Printable

/-!
# Quoted text

A text shown between quotes, in printable characters only. Apostrophes enclose it, or double quotes
when it holds an apostrophe and no double quote. A backslash goes before the enclosing quote and
before itself; line feed, carriage return and tab have letters; every other character that is not
printable is written by its code point in two, four or eight hexadecimal digits.
-/

set_option autoImplicit false

namespace NestedCss.Text

def hexadecimal (width n : Nat) : Text := padded width (Nat.toDigits 16 n)

def escapeCode (c : Char) : Text :=
  let n := c.toNat
  '\\' :: (if n < 256 then 'x' :: hexadecimal 2 n
    else if n < 65536 then 'u' :: hexadecimal 4 n
    else 'U' :: hexadecimal 8 n)

def escapeChar (quote c : Char) : Text :=
  if c == '\\' || c == quote then ['\\', c]
  else if c == '\n' then ['\\', 'n']
  else if c == '\r' then ['\\', 'r']
  else if c == '\t' then ['\\', 't']
  else if isPrintable c then [c]
  else escapeCode c

def enclosingQuote (t : Text) : Char :=
  if t.contains '\x27' && !t.contains '\x22' then '\x22' else '\x27'

def quoted (t : Text) : Text :=
  let quote := enclosingQuote t
  quote :: t.flatMap (escapeChar quote) ++ [quote]

end NestedCss.Text
