import NestedCss.Mark

/-!
# Lexemes

A source falls into lexemes: blanks, comments, strings and single marks. Where the next lexeme ends
depends on the rest of the source and on the depth of open brackets alone, because two slashes
inside brackets belong to an address and start no comment. The sources of the lexemes in a row are
the source they were read from.
-/

set_option autoImplicit false

namespace NestedCss.Scan

/-- How a string ends: at its quote, at an unescaped line break, or with the source. -/
inductive StringEnd where
  | closed
  | broken
  | cut
  deriving DecidableEq, Repr

def StringEnd.source (quote : Char) : StringEnd → Text
  | .closed => [quote]
  | .broken => ['\n']
  | .cut => []

inductive Lexeme where
  | blank (c : Char)
  | blockComment (body : Text) (closed : Bool)
  | lineComment (body : Text)
  | quotation (quote : Char) (body : Text) (ending : StringEnd)
  | mark (c : Char)
  deriving DecidableEq, Repr

namespace Lexeme

/-- The part of the source that the lexeme stands for. -/
def source : Lexeme → Text
  | .blank c => [c]
  | .blockComment body closed => '/' :: '*' :: body ++ (if closed then ['*', '/'] else [])
  | .lineComment body => '/' :: '/' :: body
  | .quotation quote body ending => quote :: body ++ ending.source quote
  | .mark c => [c]

/-- The number of lines that end inside the lexeme. -/
def breaks (x : Lexeme) : Nat := x.source.count '\n'

/-- The depth of open brackets behind the lexeme; a brace closes all of them. -/
def depthAfter (depth : Nat) : Lexeme → Nat
  | .mark c =>
    if Mark.openers.contains c then depth + 1
    else if Mark.closers.contains c then depth - 1
    else if c == '{' || c == '}' then 0
    else depth
  | _ => depth

end Lexeme

/-- The body of a string behind its first quote, how it ends, and what follows. -/
def readString (quote : Char) : Text → Text × StringEnd × Text
  | [] => ([], .cut, [])
  | ['\\'] => (['\\'], .cut, [])
  | '\\' :: c :: r =>
    let (body, ending, rest) := readString quote r
    ('\\' :: c :: body, ending, rest)
  | c :: r =>
    if c == '\n' then ([], .broken, r)
    else if c == quote then ([], .closed, r)
    else
      let (body, ending, rest) := readString quote r
      (c :: body, ending, rest)

/-- The body of a block comment behind its opening, whether it is closed, and what follows. -/
def readComment : Text → Text × Bool × Text
  | [] => ([], false, [])
  | '*' :: '/' :: r => ([], true, r)
  | c :: r =>
    let (body, closed, rest) := readComment r
    (c :: body, closed, rest)

/-- The first lexeme at a depth of open brackets, and what follows. -/
def next? (depth : Nat) : Text → Option (Lexeme × Text)
  | [] => none
  | '/' :: '*' :: r =>
    let (body, closed, rest) := readComment r
    some (.blockComment body closed, rest)
  | '/' :: '/' :: r =>
    if depth = 0 then some (.lineComment (r.takeWhile (· != '\n')), r.dropWhile (· != '\n'))
    else some (.mark '/', '/' :: r)
  | c :: r =>
    if Mark.quotes.contains c then
      let (body, ending, rest) := readString c r
      some (.quotation c body ending, rest)
    else if Mark.spacing.contains c then some (.blank c, r)
    else some (.mark c, r)

theorem readString_source (quote : Char) (t : Text) :
    (readString quote t).1 ++ (readString quote t).2.1.source quote ++ (readString quote t).2.2
      = t := by
  fun_induction readString quote t <;> simp_all [StringEnd.source]

theorem readComment_source (t : Text) :
    (readComment t).1 ++ (if (readComment t).2.1 then ['*', '/'] else []) ++ (readComment t).2.2
      = t := by
  fun_induction readComment t <;> simp_all

theorem next?_source (depth : Nat) (t : Text) (x : Lexeme) (r : Text)
    (h : next? depth t = some (x, r)) : x.source ++ r = t := by
  revert h
  fun_cases next? depth t <;> intro h <;> simp only [Option.some.injEq, Prod.mk.injEq,
    reduceCtorEq] at h
  all_goals obtain ⟨rfl, rfl⟩ := h
  case case2 r body closed rest hr =>
    have := readComment_source r
    simp_all [Lexeme.source]
  case case3 => simp [Lexeme.source]
  case case4 => rfl
  case case5 c r _ _ _ body ending rest hr =>
    have := readString_source c r
    simp_all [Lexeme.source]
  all_goals rfl

theorem source_ne_nil (x : Lexeme) : x.source ≠ [] := by
  cases x <;> simp [Lexeme.source]

theorem next?_shorter (depth : Nat) (t : Text) (x : Lexeme) (r : Text)
    (h : next? depth t = some (x, r)) : r.length < t.length := by
  rw [← next?_source depth t x r h, List.length_append]
  have := List.length_pos_iff.mpr (source_ne_nil x)
  omega

theorem next?_eq_none_iff (depth : Nat) (t : Text) : next? depth t = none ↔ t = [] := by
  fun_cases next? depth t <;> simp

def lexemes (depth : Nat) (t : Text) : List Lexeme :=
  match _ : next? depth t with
  | none => []
  | some (x, r) => x :: lexemes (x.depthAfter depth) r
termination_by t.length
decreasing_by exact next?_shorter depth t x r ‹_›

theorem lexemes_nil (depth : Nat) : lexemes depth [] = [] := by
  rw [lexemes]; rfl

theorem lexemes_cons (depth : Nat) (t : Text) (x : Lexeme) (r : Text)
    (h : next? depth t = some (x, r)) :
    lexemes depth t = x :: lexemes (x.depthAfter depth) r := by
  rw [lexemes]
  split <;> simp_all

theorem lexemes_source (depth : Nat) (t : Text) :
    (lexemes depth t).flatMap Lexeme.source = t := by
  fun_induction lexemes depth t with
  | case1 depth t h => simp [(next?_eq_none_iff depth t).mp h]
  | case2 depth t x r h ih =>
    rw [List.flatMap_cons, ih]
    exact next?_source depth t x r h

end NestedCss.Scan
