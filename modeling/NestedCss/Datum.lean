import NestedCss.Text.Quoted

/-!
# Data

Plain data as a setting may hold it. A text shows as it is; inside a list or a record it shows
quoted. What is empty, zero, false or null counts as no.
-/

set_option autoImplicit false

namespace NestedCss

inductive Datum where
  | null
  | bool (b : Bool)
  | int (n : Int)
  | text (t : Text)
  | list (items : List Datum)
  | record (fields : List (Text × Datum))
  deriving Inhabited

namespace Datum

def boolean (b : Bool) : Text := if b then "True".toList else "False".toList

mutual

/-- The datum as it shows inside another. -/
def inner : Datum → Text
  | .null => "None".toList
  | .bool b => boolean b
  | .int n => Text.integer n
  | .text t => Text.quoted t
  | .list items => '[' :: Text.join ", ".toList (innerItems items) ++ [']']
  | .record fields => '{' :: Text.join ", ".toList (innerFields fields) ++ ['}']

def innerItems : List Datum → List Text
  | [] => []
  | d :: ds => d.inner :: innerItems ds

def innerFields : List (Text × Datum) → List Text
  | [] => []
  | (k, d) :: fs => (Text.quoted k ++ ':' :: ' ' :: d.inner) :: innerFields fs

end

/-- The datum as it shows by itself. -/
def shown : Datum → Text
  | .text t => t
  | d => d.inner

/-- Whether the datum counts as yes. -/
def holds : Datum → Bool
  | .null => false
  | .bool b => b
  | .int n => n != 0
  | .text t => !t.isEmpty
  | .list items => !items.isEmpty
  | .record fields => !fields.isEmpty

end Datum

end NestedCss
