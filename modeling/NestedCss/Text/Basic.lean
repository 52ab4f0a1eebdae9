import NestedCss.Text.Ranges

/-!
# Text

A text is the list of its code points. Trimming takes blank characters off both ends, where blank
means white space anywhere in Unicode and the four information separators.
-/

set_option autoImplicit false

namespace NestedCss

abbrev Text := List Char

namespace Text

/-- What holds of all characters of a text is decided along the text, not by going through all
characters there are. -/
instance decidableForallMem (p : Char → Prop) [DecidablePred p] (t : Text) :
    Decidable (∀ c ∈ t, p c) :=
  List.decidableBAll p t

instance decidableExistsMem (p : Char → Prop) [DecidablePred p] (t : Text) :
    Decidable (∃ c ∈ t, p c) :=
  List.decidableBEx p t

def blanks : Ranges :=
  [(9, 13), (28, 32), (133, 133), (160, 160), (5760, 5760), (8192, 8202), (8232, 8233),
   (8239, 8239), (8287, 8287), (12288, 12288)]

def isBlank (c : Char) : Bool := blanks.holds c

/-- Drops the longest end of the text whose characters all satisfy `p`. -/
def dropTail (p : Char → Bool) (t : Text) : Text := (t.reverse.dropWhile p).reverse

def trim (t : Text) : Text := dropTail isBlank (t.dropWhile isBlank)

/-- The texts in order with `separator` between neighbours. -/
def join (separator : Text) (ts : List Text) : Text := separator.intercalate ts

/-- Whether `piece` stands somewhere in the text; the empty piece stands in every text. -/
def occurs (piece : Text) : Text → Bool
  | [] => piece.isEmpty
  | c :: r => piece.isPrefixOf (c :: r) || occurs piece r

/-- Puts a character in front of the first of some texts. -/
def consFirst (c : Char) : List Text → List Text
  | [] => [[c]]
  | t :: ts => (c :: t) :: ts

theorem consFirst_ne_nil (c : Char) (ts : List Text) : consFirst c ts ≠ [] := by
  cases ts <;> simp [consFirst]

theorem join_cons_cons (separator t u : Text) (us : List Text) :
    join separator (t :: u :: us) = t ++ (separator ++ join separator (u :: us)) := by
  simp [join, List.intercalate]

theorem join_consFirst (separator : Text) (c : Char) (ts : List Text) (h : ts ≠ []) :
    join separator (consFirst c ts) = c :: join separator ts := by
  match ts with
  | [t] => simp [consFirst, join, List.intercalate]
  | t :: u :: us => simp [consFirst, join, List.intercalate]

theorem join_nil_cons (separator : Text) (ts : List Text) (h : ts ≠ []) :
    join separator ([] :: ts) = separator ++ join separator ts := by
  match ts with
  | t :: us => simp [join, List.intercalate]

theorem ne_of_isBlank (c d : Char) (hc : isBlank c = true) (hd : isBlank d = false) : c ≠ d := by
  rintro rfl
  exact Bool.noConfusion (hc.symm.trans hd)

theorem dropTail_append_singleton (p : Char → Bool) (t : Text) (c : Char) :
    dropTail p (t ++ [c]) = if p c then dropTail p t else t ++ [c] := by
  cases h : p c <;> simp [dropTail, h]

end Text

end NestedCss
