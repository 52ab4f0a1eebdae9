import NestedCss.Path
import NestedCss.Prelude

/-!
# Scopes

A scope is the selector that all rules are put under. A selector is led by the scope when it begins
with it and the name goes no further, so that `.card-x` is not led by `.card`. In a flat list such
entries are anchored: the scope is replaced by `&`, and nesting the list under the scope gives it
back.
-/

set_option autoImplicit false

namespace NestedCss.Scope

/-- The scope without the dot of a class. -/
def identifier : Text → Text
  | '.' :: r => r
  | t => t

/-- What follows the scope at the start of a text that is led by it. -/
def after? (scope t : Text) : Option Text :=
  if scope.isPrefixOf t && !(t.drop scope.length).head?.any Text.isName
  then some (t.drop scope.length)
  else none

def anchorEntry (scope entry : Text) : Text :=
  match after? scope entry with
  | some r => '&' :: r
  | none => entry

def anchorList (scope t : Text) : Text := Path.joined ((Path.entries t).map (anchorEntry scope))

/-- Anchors a selector that is nested in nothing but the lowest of the stack and conditions. -/
def anchor (scope : Text) (stack : List Text) (t : Text) : Text :=
  if stack.tail.any (Prelude.kind · == .selector) || Prelude.kind t != .selector then t
  else anchorList scope t

/-- What the scope leaves behind where it is taken away before `r`, and how many characters of `r`
go with it: nothing and a space, or the root by itself. -/
def trace (r : Text) : Text × Nat :=
  match r with
  | ' ' :: _ => ([], 1)
  | _ => (":root".toList, 0)

/-- Takes away the scope wherever it stands, after a number of characters that are gone already. -/
def removeFrom (scope : Text) (gone : Nat) : Text → Text
  | [] => if gone == 0 && scope.isEmpty then ":root".toList else []
  | c :: r =>
    match gone, after? scope (c :: r) with
    | n + 1, _ => removeFrom scope n r
    | 0, none => c :: removeFrom scope 0 r
    | 0, some rest =>
      let left := trace rest
      match scope.length + left.2 with
      | 0 => left.1 ++ c :: removeFrom scope 0 r
      | n + 1 => left.1 ++ removeFrom scope n r

/-- Takes away the scope from css, so that its rules hold everywhere. -/
def remove (scope css : Text) : Text := removeFrom scope 0 css

end NestedCss.Scope
