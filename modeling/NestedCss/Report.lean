import NestedCss.Rule
import NestedCss.Fault

/-!
# Reports

What is reported on the way from a template to css. A warning is always shown, a detail only on
demand.
-/

set_option autoImplicit false

namespace NestedCss

inductive Notice where
  /-- A template has so many chunks for so many values. -/
  | chunkCount (chunks values : Nat)
  /-- Nothing is known by the name of a reference. -/
  | unknownReference (name : Text)
  /-- A key is reached for the first time. -/
  | newKey (key : Key)
  | fault (f : Fault)
  deriving DecidableEq, Repr

namespace Notice

/-- The part of the work that a notice comes from. -/
inductive Topic where
  | template
  | unnesting
  deriving DecidableEq, Repr

def topic : Notice → Topic
  | .chunkCount _ _ => .template
  | .unknownReference _ => .template
  | .newKey _ => .unnesting
  | .fault _ => .unnesting

def isWarning : Notice → Bool
  | .chunkCount _ _ => true
  | .unknownReference _ => false
  | .newKey _ => false
  | .fault _ => true

def message : Notice → Text
  | .chunkCount chunks values =>
    "template has ".toList ++ Text.natural chunks ++ " chunks for ".toList ++ Text.natural values
      ++ " values, expected ".toList ++ Text.natural (values + 1)
  | .unknownReference name =>
    "unknown prior reference ".toList ++ Text.quoted name ++ " rendered by name".toList
  | .newKey key =>
    "new rule slot ".toList ++ Text.quoted key.group ++ ' ' :: Text.quoted key.selector
  | .fault f => f.text.toList

/-- The notices that are shown, with or without details. -/
def shown (details : Bool) (ns : List Notice) : List Notice :=
  ns.filter fun n => details || n.isWarning

end Notice

end NestedCss
