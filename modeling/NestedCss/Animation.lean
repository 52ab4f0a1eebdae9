import NestedCss.Prelude
import NestedCss.Rule
import NestedCss.Text.Names

/-!
# Animations

Keyframes are named after the scope, so that the keyframes of two scopes do not meet. Each header
gets the new name, and so does every declaration of an animation that refers to it.
-/

set_option autoImplicit false

namespace NestedCss.Animation

def properties : List Text := ["animation".toList, "animation-name".toList]

/-- Whether a declaration of this name refers to keyframes. -/
def refers (name : Text) : Bool :=
  properties.contains (Prelude.afterVendor Prelude.isSmall name)

/-- The names of the keyframes among some rules, each once. -/
def names (rules : List Rule) : List Text :=
  (rules.filterMap fun r => Prelude.keyframesName r.group).eraseDups

def renameGroup (f : Text → Text) (group : Text) : Text :=
  match Prelude.Header.of? group with
  | some h => h.named (f h.name)
  | none => group

def renameLine (ns : List Text) (f : Text → Text) (d : Declaration) : Declaration :=
  if refers d.name then
    ⟨d.head ++ ':' :: Text.replaceNames ns f d.value ++ [';'], d.line⟩
  else d

def renameRule (ns : List Text) (f : Text → Text) (r : Rule) : Rule :=
  ⟨renameGroup f r.group, r.selector, r.lines.map (renameLine ns f)⟩

/-- Renames the keyframes of the filled rules, if there are any. -/
def rename (f : Text → Text) (b : Book) : Book :=
  match names b.filled with
  | [] => b
  | ns => b.mapFilled (renameRule ns f)

theorem keys_rename (f : Text → Text) (b : Book) : (rename f b).keys = b.keys := by
  unfold rename
  split
  · rfl
  · exact Book.keys_mapFilled _ b

end NestedCss.Animation
