/-!
# Faults

What can be wrong with a source. Reading never stops at a fault: it is recorded, with the line it
is found on where there is one, and reading goes on.
-/

set_option autoImplicit false

namespace NestedCss

inductive Fault.Cause where
  /-- The source ends inside a block comment. -/
  | commentOpen
  /-- The source ends inside a string. -/
  | stringOpen
  /-- A line ends inside a string. -/
  | stringBroken
  /-- A brace or the end of the source comes before a bracket is closed. -/
  | bracketOpen
  /-- The source ends inside a declaration. -/
  | declarationOpen
  /-- A brace closes nothing. -/
  | braceUnmatched
  /-- The source ends inside this many blocks. -/
  | blocksOpen (count : Nat)
  deriving DecidableEq, Repr

structure Fault where
  cause : Fault.Cause
  line : Option Int
  deriving DecidableEq, Repr

namespace Fault

def Cause.message : Cause → String
  | .commentOpen => "Comment not closed"
  | .stringOpen => "String was not closed"
  | .stringBroken => "String literal not closed"
  | .bracketOpen => "Parenthesis or bracket not closed"
  | .declarationOpen => "Declaration not terminated"
  | .braceUnmatched => "Unmatched closing brace"
  | .blocksOpen count => toString count ++ " block(s) not closed"

/-- A message with the line it is about in brackets. -/
def located (message : String) : Option Int → String
  | none => message
  | some line => message ++ " (line " ++ toString line ++ ")"

def text (f : Fault) : String := located f.cause.message f.line

end Fault

end NestedCss
