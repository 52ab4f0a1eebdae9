import NestedCss.Scan.Reading

/-!
# Readers

A reader stands somewhere in a source and moves on by one character, by one statement, or to the
end. A brace that closes a block right behind a declaration ends two statements at once; the second
of them waits in a queue for the next call.
-/

set_option autoImplicit false

namespace NestedCss.Scan

structure Reader where
  source : Text
  index : Nat
  line : Int
  faults : List Fault
  queued : List Statement
  deriving DecidableEq, Repr

/-- What may be found at a distance from the reader. -/
inductive Glance where
  | char (c : Char)
  /-- The place lies behind the end of the source. -/
  | beyond
  /-- The place lies before the start, even when counted from the end. -/
  | outside
  deriving DecidableEq, Repr

/-- The message about a place outside the source. -/
def Glance.complaint : String := "string index out of range"

namespace Reader

/-- A reader at the start of a source whose line breaks may have any form. -/
def start (source : Text) : Reader := ⟨Text.unifyBreaks source, 0, 1, [], []⟩

def rest (r : Reader) : Text := r.source.drop r.index

/-- Looks at the `amount`-th character from the reader on. A place before the start of the source
counts from its end. -/
def peek (r : Reader) (amount : Int) : Glance :=
  let place := r.index + amount - 1
  let length : Int := r.source.length
  let found := if place < 0 then place + length else place
  if length ≤ place then .beyond
  else if found < 0 then .outside
  else match r.source[found.toNat]? with
    | some c => .char c
    | none => .beyond

/-- Moves past one character and leaves the queue alone. -/
def next (r : Reader) : Option Char × Reader :=
  match r.source[r.index]? with
  | none => (none, r)
  | some c => (some c, { r with index := r.index + 1, line := r.line + [c].count '\n' })

/-- Moves past one statement. At the end of the source the statement is an ending. -/
def consume (r : Reader) : Statement × Reader :=
  match r.queued with
  | t :: ts => (t, { r with queued := ts })
  | [] =>
    let p := readFirst r.line Draft.empty (lexemes 0 r.rest)
    (p.statements.headD (.ending [] 0),
      { r with
        index := r.index + p.width
        line := p.line
        faults := r.faults ++ p.faults
        queued := p.statements.tail })

/-- Moves to the end of the source past all the statements. -/
def drain (r : Reader) : List Statement × Reader :=
  let w := read r.line Draft.empty (lexemes 0 r.rest)
  (r.queued ++ w.statements,
    { r with
      index := r.source.length
      line := w.line
      faults := r.faults ++ w.faults
      queued := [] })

theorem drain_start (source : Text) :
    (start source).drain.1 = (readSource source).statements := rfl

end Reader

end NestedCss.Scan
