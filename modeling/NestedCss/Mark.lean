import NestedCss.Text.Basic

/-!
# Marks

The characters that steer the reading of nested css: spacing, quotes, brackets, and the marks that
take no space on either side. Inside brackets only colon and comma stay tight, since a sum such as
`calc(1px + 2px)` needs its spaces.
-/

set_option autoImplicit false

namespace NestedCss.Mark

def spacing : Text := ['\t', '\n', ' ']

def quotes : Text := ['\x22', '\x27']

def openers : Text := ['(', '[']

def closers : Text := [')', ']']

def tight (nested : Bool) : Text :=
  if nested then [':', ','] else [':', '{', ';', '>', '+', '~', ',']

/-- Whether a piece of text, if there is one, stands among the marks as they are listed. -/
def among (marks : Text) (piece : Option Text) : Bool :=
  piece.any fun t => Text.occurs t marks

def opensBlockComment (first second : Option Text) : Bool :=
  first == some ['/'] && second == some ['*']

def opensLineComment (first second : Option Text) : Bool :=
  first == some ['/'] && second == some ['/']

theorem quotes_solid : ∀ c ∈ quotes, Text.isBlank c = false := by
  simp [quotes, Text.isBlank, Text.blanks, Text.Ranges.holds]

theorem openers_solid : ∀ c ∈ openers, Text.isBlank c = false := by
  simp [openers, Text.isBlank, Text.blanks, Text.Ranges.holds]

theorem closers_solid : ∀ c ∈ closers, Text.isBlank c = false := by
  simp [closers, Text.isBlank, Text.blanks, Text.Ranges.holds]

theorem quotes_not_closers : ∀ c ∈ quotes, c ∉ closers := by
  simp [quotes, closers]

theorem openers_not_closers : ∀ c ∈ openers, c ∉ closers := by
  simp [openers, closers]

theorem spacing_blank : ∀ c ∈ spacing, Text.isBlank c = true := by
  simp [spacing, Text.isBlank, Text.blanks, Text.Ranges.holds]

theorem mem_tight (c : Char) : c ∈ tight false ↔
    c = ':' ∨ c = '{' ∨ c = ';' ∨ c = '>' ∨ c = '+' ∨ c = '~' ∨ c = ',' := by
  simp [tight]

theorem tight_nested (c : Char) (h : c ∈ tight true) : c ∈ tight false := by
  simp [tight] at h ⊢
  rcases h with rfl | rfl <;> simp

end NestedCss.Mark
