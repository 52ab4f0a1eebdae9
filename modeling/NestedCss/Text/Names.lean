import NestedCss.Text.Basic
import NestedCss.Text.Word

/-!
# Replacing names

Some names are replaced in a text where they stand as whole names, with no name character right
before or behind them. Where several names begin at one place, the longest that is whole there is
replaced.
-/

set_option autoImplicit false

namespace NestedCss.Text

/-- Whether the text begins with the name and the name ends there. -/
def leads (name t : Text) : Bool :=
  name.isPrefixOf t && !(t.drop name.length).head?.any isName

def longer (best : Option Text) (name : Text) : Option Text :=
  match best with
  | none => some name
  | some b => if b.length < name.length then some name else some b

/-- The longest of the names that the text begins with. -/
def leadingName (names : List Text) (t : Text) : Option Text :=
  (names.filter (leads · t)).foldl longer none

/-- Replaces names in a text, of which the first `gone` characters are replaced already. `inName`
tells whether a name character comes before the text. -/
def replaceFrom (names : List Text) (f : Text → Text) (inName : Bool) (gone : Nat) : Text → Text
  | [] => []
  | c :: r =>
    match gone with
    | n + 1 => replaceFrom names f (isName c) n r
    | 0 =>
      match if inName then none else leadingName names (c :: r) with
      | none => c :: replaceFrom names f (isName c) 0 r
      | some name => f name ++ replaceFrom names f (isName c) (name.length - 1) r

def replaceNames (names : List Text) (f : Text → Text) (t : Text) : Text :=
  replaceFrom names f false 0 t

theorem replaceFrom_nil (f : Text → Text) (inName : Bool) (t : Text) :
    replaceFrom [] f inName 0 t = t := by
  induction t generalizing inName with
  | nil => rfl
  | cons c r ih => cases inName <;> simp [replaceFrom, leadingName, ih]

end NestedCss.Text
