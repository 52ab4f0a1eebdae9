import NestedCss.Fault
import NestedCss.Statement
import NestedCss.Scan.Lexeme

/-!
# Drafts

A draft is the statement that is being read. Each lexeme either goes into it or ends it. Blanks and
comments only leave a gap, which becomes one space when neither neighbour is a tight mark. The
draft starts afresh behind every brace and every semicolon outside brackets.
-/

set_option autoImplicit false

namespace NestedCss.Scan

structure Draft where
  /-- What has been written so far, the latest character first. -/
  written : Text
  /-- Whether a blank or a comment came after it. -/
  gap : Bool
  /-- The depth of open brackets. -/
  depth : Nat
  deriving DecidableEq, Repr

/-- What one lexeme makes of a draft. -/
structure Outcome where
  draft : Draft
  faults : List Fault
  statements : List Statement
  deriving DecidableEq, Repr

namespace Draft

def empty : Draft := ⟨[], false, 0⟩

def text (d : Draft) : Text := Text.trim d.written.reverse

def isTight (d : Draft) (c : Char) : Bool := (Mark.tight (d.depth > 0)).contains c

/-- Whether a space goes between the draft and a piece written next. -/
def spaces (d : Draft) (piece : Text) : Bool :=
  d.gap && match d.written, piece with
    | a :: _, b :: _ => !d.isTight a && !d.isTight b
    | _, _ => false

def put (d : Draft) (piece : Text) : Draft :=
  { d with
    written := piece.reverse ++ (if d.spaces piece then ' ' :: d.written else d.written)
    gap := false }

/-- The draft as a declaration, if anything has been written. -/
def declaration? (d : Draft) (line : Int) : Option Declaration :=
  if d.text = [] then none else some ⟨d.text ++ [';'], line⟩

def declarations (d : Draft) (line : Int) : List Statement :=
  (d.declaration? line).toList.map .declaration

/-- The fault of a bracket that is open where a statement has to end. -/
def bracketFaults (d : Draft) (line : Int) : List Fault :=
  if d.depth > 0 then [⟨.bracketOpen, some line⟩] else []

def stringFaults (line : Int) : StringEnd → List Fault
  | .closed => []
  | .broken => [⟨.stringBroken, some line⟩]
  | .cut => [⟨.stringOpen, some line⟩]

/-- A string as it goes into the draft. A line break that ends it is left out. -/
def stringText (quote : Char) (body : Text) : StringEnd → Text
  | .closed => quote :: body ++ [quote]
  | _ => quote :: body

/-- Takes a single mark on a line into the draft. -/
def mark (d : Draft) (line : Int) (c : Char) : Outcome :=
  if Mark.openers.contains c then ⟨{ d.put [c] with depth := d.depth + 1 }, [], []⟩
  else if Mark.closers.contains c then ⟨{ d with depth := d.depth - 1 }.put [c], [], []⟩
  else if c == '{' then ⟨empty, d.bracketFaults line, [.opening d.text line]⟩
  else if c == '}' then ⟨empty, d.bracketFaults line, d.declarations line ++ [.closing line]⟩
  else if c == ';' && d.depth == 0 then ⟨empty, [], d.declarations line⟩
  else ⟨d.put [c], [], []⟩

/-- Takes the lexeme that begins on a line into the draft. -/
def step (d : Draft) (line : Int) : Lexeme → Outcome
  | .blank _ => ⟨{ d with gap := true }, [], []⟩
  | .blockComment _ closed =>
    ⟨{ d with gap := true }, if closed then [] else [⟨.commentOpen, some line⟩], []⟩
  | .lineComment _ => ⟨{ d with gap := true }, [], []⟩
  | .quotation quote body ending =>
    ⟨d.put (stringText quote body ending), stringFaults line ending, []⟩
  | .mark c => d.mark line c

/-- Ends the draft with the source: a declaration is taken as if its semicolon were there. -/
def stop (d : Draft) (line : Int) : Outcome :=
  let unterminated := (d.declaration? line).toList.map fun _ => ⟨.declarationOpen, some line⟩
  ⟨empty, d.bracketFaults line ++ unterminated, d.declarations line⟩

theorem text_empty : empty.text = [] := rfl

theorem stop_empty (line : Int) : empty.stop line = ⟨empty, [], []⟩ := rfl

theorem mark_draft_of_statements (d : Draft) (line : Int) (c : Char)
    (h : (d.mark line c).statements ≠ []) : (d.mark line c).draft = empty := by
  revert h
  fun_cases mark d line c <;> simp

/-- Every statement that ends leaves nothing behind for the next. -/
theorem step_draft_of_statements (d : Draft) (line : Int) (x : Lexeme)
    (h : (d.step line x).statements ≠ []) : (d.step line x).draft = empty := by
  cases x with
  | mark c => exact mark_draft_of_statements d line c h
  | _ => exact absurd rfl h

end Draft

end NestedCss.Scan
