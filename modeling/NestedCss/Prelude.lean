import NestedCss.Text.Quoted
import NestedCss.Text.Word

/-!
# Preludes

The text in front of a block says what the block is: keyframes with a name, a condition on the
medium or the container, or else a list of selectors. At-keywords are compared without regard to
case, and a few letters beyond ASCII stand for the letter they fold to.
-/

set_option autoImplicit false

namespace NestedCss

namespace Prelude

inductive Kind where
  | selector
  | condition
  | keyframes
  deriving DecidableEq, Repr

def Kind.name : Kind → String
  | .selector => "selector"
  | .condition => "condition"
  | .keyframes => "keyframes"

/-- The small letter that a letter counts as: the long s is an s, the Kelvin sign a k, and the
dotless small and the dotted capital i are an i. -/
def foldLetter (c : Char) : Char :=
  if c == '\u017f' then 's'
  else if c == '\u212a' then 'k'
  else if c == '\u0130' || c == '\u0131' then 'i'
  else c.toLower

def isSmall (c : Char) : Bool := 'a' ≤ c && c ≤ 'z'

def isLetter (c : Char) : Bool := isSmall (foldLetter c)

/-- What follows a word of small letters at the start of a text, in either case. -/
def afterWord : Text → Text → Option Text
  | [], t => some t
  | _ :: _, [] => none
  | w :: ws, c :: r => if foldLetter c == w then afterWord ws r else none

/-- What follows a vendor mark such as `-webkit-` at the start of a text, or the text itself. -/
def afterVendor (letter : Char → Bool) : Text → Text
  | '-' :: r =>
    match r.takeWhile letter, r.dropWhile letter with
    | _ :: _, '-' :: rest => rest
    | _, _ => '-' :: r
  | t => t

/-- The header of a keyframes block, cut around the name. -/
structure Header where
  lead : Text
  name : Text
  tail : Text
  deriving DecidableEq, Repr

def endsName (c : Char) : Bool := Text.isBlank c || c == '{'

/-- Cuts a text behind its lead where the name begins, if blanks come first and the name is not
empty. -/
def Header.cut? (lead after : Text) : Option Header :=
  let name := (after.dropWhile Text.isBlank).takeWhile (!endsName ·)
  if (after.takeWhile Text.isBlank).isEmpty || name.isEmpty then none
  else some ⟨lead ++ after.takeWhile Text.isBlank, name,
    (after.dropWhile Text.isBlank).dropWhile (!endsName ·)⟩

def Header.of? : Text → Option Header
  | '@' :: r =>
    match afterWord "keyframes".toList (afterVendor isLetter r) with
    | none => none
    | some after => Header.cut? ('@' :: r.take (r.length - after.length)) after
  | _ => none

/-- The header with another name in place of its own. -/
def Header.named (h : Header) (name : Text) : Text := h.lead ++ name ++ h.tail

def Header.text (h : Header) : Text := h.named h.name

def isCondition : Text → Bool
  | '@' :: r => ["media".toList, "container".toList].any fun word =>
      match afterWord word r with
      | some after => !after.head?.any Text.isWord
      | none => false
  | _ => false

def kind (t : Text) : Kind :=
  if (Header.of? t).isSome then .keyframes
  else if isCondition t then .condition
  else .selector

/-- The name that a keyframes header declares. -/
def keyframesName (t : Text) : Option Text := (Header.of? t).map Header.name

/-- A prelude with its kind. -/
def described (t : Text) : Text :=
  "Narrower(".toList ++ (kind t).name.toList ++ ", ".toList ++ Text.quoted t ++ [')']

theorem afterWord_suffix (word t after : Text) (h : afterWord word t = some after) :
    after <:+ t := by
  fun_induction afterWord word t with
  | case1 t => simp at h; exact h ▸ List.suffix_refl _
  | case2 => simp at h
  | case3 w ws c r _ ih => exact (ih h).trans (List.suffix_cons c r)
  | case4 => simp at h

theorem afterVendor_suffix (letter : Char → Bool) (t : Text) : afterVendor letter t <:+ t := by
  fun_cases afterVendor letter t with
  | case1 r _ _ rest h _ =>
    have : '-' :: rest <:+ r := h ▸ List.dropWhile_suffix letter
    exact ((List.suffix_cons _ _).trans this).trans (List.suffix_cons _ _)
  | case2 => exact List.suffix_refl _
  | case3 => exact List.suffix_refl _

/-- Cutting a header loses nothing of it. -/
theorem Header.text_of? (t : Text) (h : Header) (ht : Header.of? t = some h) : h.text = t := by
  match t with
  | [] => simp [Header.of?] at ht
  | c :: r =>
    unfold Header.of? at ht
    split at ht
    · next r' heq =>
      obtain ⟨rfl, rfl⟩ := List.cons.inj heq
      split at ht
      · simp at ht
      · next after ha =>
        obtain ⟨front, hfront⟩ :=
          (afterWord_suffix _ _ _ ha).trans (afterVendor_suffix isLetter r)
        simp only [Header.cut?] at ht
        split at ht
        · simp at ht
        · simp only [Option.some.injEq] at ht
          subst ht
          have hlen : r.take (r.length - after.length) = front := by
            rw [← hfront]; simp
          simp [Header.text, Header.named, List.takeWhile_append_dropWhile, hlen, hfront]
    · simp at ht

end Prelude

end NestedCss
