import NestedCss.Mark
import NestedCss.Text.Word

/-!
# Paths

A list of selectors is cut at its commas, except inside quotes and brackets. A segment is attached
to the path of its parent by putting the path for every `&`, or else behind the path: a path that
ends in a word takes a space before a segment that begins one. A list is attached to a list pair by
pair, and a stack of segments is attached from the bottom up.
-/

set_option autoImplicit false

namespace NestedCss.Path

/-- What keeps a comma from cutting: the quote that is open and the depth of open brackets. -/
structure Guard where
  quote : Option Char
  depth : Nat
  deriving DecidableEq, Repr

namespace Guard

def start : Guard := ⟨none, 0⟩

def cuts (g : Guard) (c : Char) : Bool := g.quote.isNone && g.depth == 0 && c == ','

def step (g : Guard) (c : Char) : Guard :=
  match g.quote with
  | some q => if c == q then { g with quote := none } else g
  | none =>
    if Mark.quotes.contains c then { g with quote := some c }
    else if Mark.openers.contains c then { g with depth := g.depth + 1 }
    else if Mark.closers.contains c then { g with depth := g.depth - 1 }
    else g

def steps (g : Guard) (t : Text) : Guard := t.foldl step g

theorem steps_append (g : Guard) (s t : Text) : g.steps (s ++ t) = (g.steps s).steps t :=
  List.foldl_append

end Guard

def cut (g : Guard) : Text → List Text
  | [] => [[]]
  | c :: r => if g.cuts c then [] :: cut g r else Text.consFirst c (cut (g.step c) r)

/-- The entries of a list of selectors. -/
def entries (t : Text) : List Text := cut Guard.start t

def joined (ts : List Text) : Text := Text.join [','] ts

/-- Whether the text ends in a word character, one line break at the end left aside. -/
def endsInWord (t : Text) : Bool :=
  match t.reverse with
  | '\n' :: c :: _ => Text.isWord c
  | c :: _ => Text.isWord c
  | [] => false

/-- Whether the text begins a compound selector of its own. -/
def startsCompound : Text → Bool
  | [] => false
  | c :: _ => c.isAlpha || ['.', '#', '*', '[', ':'].contains c

/-- Puts the path for every `&`. -/
def putParent (path segment : Text) : Text :=
  segment.flatMap fun c => if c == '&' then path else [c]

theorem putParent_parent (path segment : Text) :
    putParent path ('&' :: segment) = path ++ putParent path segment := rfl

theorem putParent_cons (path segment : Text) (c : Char) (hc : c ≠ '&') :
    putParent path (c :: segment) = c :: putParent path segment := by
  simp [putParent, hc]

def attach (path segment : Text) : Text :=
  if segment.contains '&' then Text.trim (putParent path segment)
  else if endsInWord path && startsCompound segment then path ++ ' ' :: segment
  else path ++ segment

def pairings (paths segments : List Text) : List Text :=
  paths.flatMap fun path => segments.map (attach path)

/-- Attaches a list of selectors to a list of paths. -/
def attachList (path segment : Text) : Text := joined (pairings (entries path) (entries segment))

/-- Attaches a stack of lists from the bottom up. -/
def compose : List Text → Text
  | [] => []
  | t :: ts => ts.foldl attachList t

theorem cut_ne_nil (g : Guard) (t : Text) : cut g t ≠ [] := by
  cases t with
  | nil => simp [cut]
  | cons c r =>
    rw [cut]
    split
    · simp
    · exact Text.consFirst_ne_nil _ _

/-- Cutting drops nothing but the commas it cuts at. -/
theorem joined_cut (g : Guard) (t : Text) : joined (cut g t) = t := by
  induction t generalizing g with
  | nil => rfl
  | cons c r ih =>
    rw [cut]
    split
    · next h =>
      simp only [Guard.cuts, Bool.and_eq_true, beq_iff_eq] at h
      rw [joined, Text.join_nil_cons _ _ (cut_ne_nil g r), h.2]
      exact congrArg _ (ih g)
    · rw [joined, Text.join_consFirst _ _ _ (cut_ne_nil _ r)]
      exact congrArg _ (ih _)

end NestedCss.Path
