import NestedCss.Text.Basic

/-!
# Squeezing

Nested css loses the blanks and semicolons that mean nothing. A run of blanks with a line break in
it becomes the line break, blanks next to a tight mark go, and of semicolons in a row one stays.
-/

set_option autoImplicit false

namespace NestedCss.Squeeze

def marks : Text := [':', '{', ';', '~', ',']

/-- What is left of a run of blanks, given with the latest first. -/
def foldedRun (run : Text) : Text := if run.contains '\n' then ['\n'] else run.reverse

/-- Folds runs of blanks. `run` holds the blanks right before the text, the latest first. -/
def foldFrom (run : Text) : Text → Text
  | [] => foldedRun run
  | c :: r =>
    if Text.isBlank c then foldFrom (c :: run) r
    else foldedRun run ++ c :: foldFrom [] r

def foldBreaks (t : Text) : Text := foldFrom [] t

/-- Drops blanks next to marks. `atMark` tells whether a mark comes before the run of blanks right
before the text. -/
def tightenFrom (atMark : Bool) (run : Text) : Text → Text
  | [] => if atMark then [] else run.reverse
  | c :: r =>
    if Text.isBlank c then tightenFrom atMark (c :: run) r
    else if marks.contains c then c :: tightenFrom true [] r
    else (if atMark then [] else run.reverse) ++ c :: tightenFrom false [] r

def tighten (t : Text) : Text := tightenFrom false [] t

/-- Drops every semicolon behind another. -/
def mergeFrom (behind : Bool) : Text → Text
  | [] => []
  | c :: r =>
    if c == ';' then if behind then mergeFrom true r else c :: mergeFrom true r
    else c :: mergeFrom false r

def mergeSemicolons (t : Text) : Text := mergeFrom false t

def squeeze (t : Text) : Text := mergeSemicolons (tighten (foldBreaks t))

end NestedCss.Squeeze
