import NestedCss.Text.Breaks
import NestedCss.Scan.Draft

/-!
# Readings

A reading is what a source comes to: its statements, its faults in the order in which they are
found, and its last line. Reading goes through the lexemes once. Read up to the first statement and
then on from there, the lexemes give what reading them in one go gives.
-/

set_option autoImplicit false

namespace NestedCss.Scan

structure Reading where
  statements : List Statement
  faults : List Fault
  line : Int
  deriving DecidableEq, Repr

def Reading.prepend (statements : List Statement) (faults : List Fault) (r : Reading) : Reading :=
  ⟨statements ++ r.statements, faults ++ r.faults, r.line⟩

/-- Reads all the lexemes into a draft, the first of them beginning on a line. -/
def read (line : Int) (d : Draft) : List Lexeme → Reading
  | [] => ⟨(d.stop line).statements, (d.stop line).faults, line⟩
  | x :: xs =>
    let o := d.step line x
    (read (line + x.breaks) o.draft xs).prepend o.statements o.faults

/-- A reading up to the lexeme that ends the first statement, or to the end of the source. -/
structure Pause extends Reading where
  /-- The number of characters that have been read. -/
  width : Nat
  /-- The lexemes that have not been read. -/
  rest : List Lexeme
  deriving DecidableEq, Repr

def Pause.prepend (faults : List Fault) (width : Nat) (p : Pause) : Pause :=
  { p with faults := faults ++ p.faults, width := width + p.width }

def readFirst (line : Int) (d : Draft) : List Lexeme → Pause
  | [] => ⟨read line d [], 0, []⟩
  | x :: xs =>
    let o := d.step line x
    match o.statements with
    | [] => (readFirst (line + x.breaks) o.draft xs).prepend o.faults x.source.length
    | ts => ⟨⟨ts, o.faults, line + x.breaks⟩, x.source.length, xs⟩

/-- The reading of a source as it was written, its line breaks still in any form. -/
def readSource (source : Text) : Reading :=
  read 1 Draft.empty (lexemes 0 (Text.unifyBreaks source))

theorem read_eq_readFirst (line : Int) (d : Draft) (xs : List Lexeme) :
    read line d xs =
      (read (readFirst line d xs).line Draft.empty (readFirst line d xs).rest).prepend
        (readFirst line d xs).statements (readFirst line d xs).faults := by
  induction xs generalizing line d with
  | nil => simp [readFirst, Reading.prepend, read, Draft.stop_empty]
  | cons x xs ih =>
    rw [read, readFirst]
    split
    · next h =>
      rw [ih, h]
      simp [Pause.prepend, Reading.prepend]
    · next ts h =>
      rw [Draft.step_draft_of_statements d line x h]

end NestedCss.Scan
