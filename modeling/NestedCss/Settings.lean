import NestedCss.Datum

/-!
# Settings

How css is laid out and whether keyframes get names of their own. Settings are given as a record;
a field that is missing has its default, one that is present wins whatever it holds, and fields of
other names are kept and mean nothing.
-/

set_option autoImplicit false

namespace NestedCss

abbrev Record := List (Text × Datum)

namespace Record

def indentKey : Text := "indent".toList

def separatorKey : Text := "keyframe_separator".toList

def namespaceKey : Text := "namespace_keyframes".toList

def defaults : Record :=
  [(indentKey, .text [' ', ' ']), (separatorKey, .text ['_']), (namespaceKey, .bool true)]

/-- The record with the default of every field that it lacks at its end. -/
def filled (r : Record) : Record :=
  r ++ defaults.filter fun (k, _) => (r.lookup k).isNone

end Record

structure Settings where
  /-- What stands before a rule within a group. -/
  indent : Text
  /-- What stands between the scope and the name of keyframes. -/
  separator : Text
  /-- Whether keyframes are named after the scope. -/
  namespaced : Bool
  deriving DecidableEq, Repr

namespace Settings

def ofRecord (r : Record) : Settings :=
  let field (k : Text) := ((Record.filled r).lookup k).getD .null
  ⟨(field Record.indentKey).shown, (field Record.separatorKey).shown,
    (field Record.namespaceKey).holds⟩

def standard : Settings := ofRecord []

theorem standard_eq : standard = ⟨[' ', ' '], ['_'], true⟩ := rfl

end Settings

end NestedCss
