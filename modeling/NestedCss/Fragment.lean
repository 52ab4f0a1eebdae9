import NestedCss.Number.Numeral
import NestedCss.Report

/-!
# Fragments

A fragment is what stands between the chunks of a template: text, a number, nothing, or a reference
to nested css that an earlier template made. A raw value becomes a fragment by what it is; a text
that names earlier css is a reference to it.
-/

set_option autoImplicit false

namespace NestedCss

inductive Fragment where
  | text (t : Text)
  | number (n : Numeral)
  | omitted
  | reference (name : Text)
  deriving DecidableEq, Repr

/-- A value as it is put into a template. -/
inductive Raw where
  | null
  | bool (b : Bool)
  | text (t : Text)
  | number (n : Numeral)
  /-- Anything else that can be shown as text. -/
  | foreign (t : Text)
  | fragment (f : Fragment)
  deriving DecidableEq, Repr

/-- The nested css of earlier templates by its names. -/
abbrev Prior := List (Text × Text)

namespace Fragment

def ofRaw (prior : Prior) : Raw → Fragment
  | .fragment f => f
  | .null => .omitted
  | .bool false => .omitted
  | .bool true => .text "true".toList
  | .text [] => .omitted
  | .text t => if (prior.lookup t).isSome then .reference t else .text t
  | .number n => .number n
  | .foreign t => .text t

/-- The nested css that a fragment stands for. A reference to nothing stands for its name. -/
def rendered (prior : Prior) : Fragment → Text
  | .text t => t
  | .number n => n.text
  | .omitted => []
  | .reference name => (prior.lookup name).getD name

def notices (prior : Prior) : Fragment → List Notice
  | .reference name =>
    if (prior.lookup name).isSome then [] else [.unknownReference name]
  | _ => []

/-- A reference made from a raw text is never unknown. -/
theorem notices_ofRaw_text (prior : Prior) (t : Text) :
    (ofRaw prior (.text t)).notices prior = [] := by
  cases t with
  | nil => rfl
  | cons c r =>
    simp only [ofRaw]
    split
    · next h => simp [notices, h]
    · rfl

end Fragment

end NestedCss
