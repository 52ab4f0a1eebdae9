import NestedCss.Text.Basic
import NestedCss.Text.Word

/-!
# Conditions

The conditions of nested blocks are joined into one: the at-keyword of the outermost block, and
behind it the parts of all the conditions, each once, with `and` between them. A condition is parted
at the word `and`.
-/

set_option autoImplicit false

namespace NestedCss.Condition

/-- The at-keyword at the start of a text. -/
def keyword? : Text → Option Text
  | '@' :: r =>
    match r.takeWhile Text.isName with
    | [] => none
    | word => some ('@' :: word)
  | _ => none

/-- The text behind its at-keyword, if it starts with one. -/
def afterKeyword (t : Text) : Text := t.drop ((keyword? t).getD []).length

/-- Parts a text at every `and` that is a word by itself. `inWord` tells whether a word character
comes before the text. -/
def part (inWord : Bool) : Text → List Text
  | [] => [[]]
  | 'a' :: 'n' :: 'd' :: r =>
    if !inWord && !r.head?.any Text.isWord then [] :: part true r
    else Text.consFirst 'a' (part true ('n' :: 'd' :: r))
  | c :: r => Text.consFirst c (part (Text.isWord c) r)

/-- The parts of a condition, trimmed, without those that are empty. -/
def conjuncts (t : Text) : List Text :=
  ((part false (afterKeyword t)).map Text.trim).filter (· ≠ [])

def joint : Text := " and ".toList

def conjoin : List Text → Text
  | [] => []
  | t :: ts =>
    let keyword := (keyword? t).getD "@media".toList
    match ((t :: ts).flatMap conjuncts).eraseDups with
    | [] => keyword
    | parts => keyword ++ ' ' :: Text.join joint parts

end NestedCss.Condition
