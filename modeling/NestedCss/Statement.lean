import NestedCss.Text.Lowercase
import NestedCss.Text.Quoted

/-!
# Statements

Nested css is a sequence of statements: a block is opened by its prelude and closed by a brace,
and a declaration stands inside it.

```
.card{            opening
  color:red;      declaration
  &:hover{        opening
    color:blue;   declaration
  }               closing
}                 closing
```
-/

set_option autoImplicit false

namespace NestedCss

/-- A declaration with its semicolon, as in `color:red;`. -/
structure Declaration where
  text : Text
  line : Int
  deriving DecidableEq, Repr

namespace Declaration

/-- All that stands before the first colon. -/
def head (d : Declaration) : Text := d.text.takeWhile (· != ':')

def name (d : Declaration) : Text := Text.lowercase (Text.trim d.head)

/-- All that stands after the first colon, without the semicolons at the end. -/
def value (d : Declaration) : Text := Text.dropTail (· == ';') (d.text.dropWhile (· != ':')).tail

end Declaration

inductive Statement where
  | opening (text : Text) (line : Int)
  | closing (line : Int)
  | declaration (d : Declaration)
  /-- The end of the source. -/
  | ending (text : Text) (line : Int)
  /-- Text of no kind in particular. -/
  | bare (text : Text) (line : Int)
  deriving DecidableEq, Repr

namespace Statement

def text : Statement → Text
  | .opening t _ => t
  | .closing _ => []
  | .declaration d => d.text
  | .ending t _ => t
  | .bare t _ => t

def line : Statement → Int
  | .opening _ n => n
  | .closing n => n
  | .declaration d => d.line
  | .ending _ n => n
  | .bare _ n => n

/-- The statement as it stands in a source. -/
def spelled : Statement → Text
  | .opening t _ => t ++ ['{']
  | .closing _ => ['}']
  | .declaration d => d.text
  | .ending t _ => t
  | .bare t _ => t

/-- The statement wherever it stands. -/
def unplaced : Statement → Statement
  | .opening t _ => .opening t 0
  | .closing _ => .closing 0
  | .declaration d => .declaration ⟨d.text, 0⟩
  | .ending t _ => .ending t 0
  | .bare t _ => .bare t 0

/-- Statements are the same when they differ in their lines at most. -/
def same (a b : Statement) : Bool := a.unplaced == b.unplaced

def kind : Statement → String
  | .opening _ _ => "Open"
  | .closing _ => "Close"
  | .declaration _ => "Declaration"
  | .ending _ _ => "EOF"
  | .bare _ _ => "Token"

/-- The kind, with the text in brackets where a statement of that kind has one. -/
def described (s : Statement) : Text :=
  let shown := match s with
    | .closing _ => []
    | _ => Text.quoted s.text
  s.kind.toList ++ '(' :: shown ++ [')']

end Statement

end NestedCss
