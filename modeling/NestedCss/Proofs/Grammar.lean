import Mathlib.Data.List.Basic
import NestedCss.Scan.Lexeme

/-!
# The grammar of nested css

A sheet is a row of items and nothing but blanks behind them. An item is a text and a semicolon, or
a block: a text and braces around items and a last text that needs no semicolon. Brackets within a
text close in groups, where a semicolon is a character like others; a closer that closes nothing is
one as well. A recogniser with two counters, one for blocks and one for brackets, accepts what the
grammar derives.
-/

set_option autoImplicit false

namespace NestedCss

namespace Scan.Lexeme

/-- Whether a lexeme may stand by itself in a text, within brackets or outside of them. -/
def fits (nested : Bool) : Lexeme → Bool
  | .blank _ => true
  | .blockComment _ closed => closed
  -- no lexeme of a source is a line comment within brackets
  | .lineComment _ => true
  | .quotation _ _ ending => ending == .closed
  | .mark c => c != '{' && c != '}' && !Mark.openers.contains c &&
      if nested then !Mark.closers.contains c else c != ';'

/-- Whether a character of the lexeme that is not blank stands outside comments. -/
def isSolid : Lexeme → Bool
  | .quotation quote body _ => (quote :: body).any (!Text.isBlank ·)
  | .mark c => !Text.isBlank c
  | _ => false

end Scan.Lexeme

namespace Grammar

open Scan

/-- A text: lexemes that may stand by themselves, and groups of brackets. -/
inductive Stretch : Bool → List Lexeme → Prop where
  | nil (nested : Bool) : Stretch nested []
  | lexeme (nested : Bool) (x : Lexeme) (xs : List Lexeme) (hx : x.fits nested = true)
      (h : Stretch nested xs) : Stretch nested (x :: xs)
  | group (nested : Bool) (opener closer : Char) (inner xs : List Lexeme)
      (ho : opener ∈ Mark.openers) (hi : Stretch true inner) (hc : closer ∈ Mark.closers)
      (h : Stretch nested xs) : Stretch nested (.mark opener :: (inner ++ .mark closer :: xs))

inductive Items : List Lexeme → Prop where
  | nil : Items []
  | declaration (text rest : List Lexeme) (ht : Stretch false text) (h : Items rest) :
      Items (text ++ .mark ';' :: rest)
  | block (prelude inner last rest : List Lexeme) (hp : Stretch false prelude) (hi : Items inner)
      (hl : Stretch false last) (h : Items rest) :
      Items (prelude ++ .mark '{' :: (inner ++ (last ++ .mark '}' :: rest)))

def Sheet (xs : List Lexeme) : Prop :=
  ∃ items last, xs = items ++ last ∧ Items items ∧ Stretch false last ∧
    last.any Lexeme.isSolid = false

/-- Whether lexemes close everything: the blocks and the brackets that are open before them, and
the text that has begun, if anything solid has. -/
def closes (blocks depth : Nat) (solid : Bool) : List Lexeme → Bool
  | [] => blocks == 0 && depth == 0 && !solid
  | .mark c :: xs =>
    if Mark.openers.contains c then closes blocks (depth + 1) true xs
    else if Mark.closers.contains c then closes blocks (depth - 1) true xs
    else if c == '{' then depth == 0 && closes (blocks + 1) 0 false xs
    else if c == '}' then depth == 0 && blocks != 0 && closes (blocks - 1) 0 false xs
    else if c == ';' && depth == 0 then closes blocks 0 false xs
    else closes blocks depth (solid || !Text.isBlank c) xs
  | x :: xs => x.fits (depth != 0) && closes blocks depth (solid || x.isSolid) xs

/-! ## What is accepted is derived -/

/-- A text from within so many open brackets on. -/
def Within : Nat → List Lexeme → Prop
  | 0, xs => Stretch false xs
  | n + 1, xs => ∃ inner closer rest, xs = inner ++ .mark closer :: rest ∧ Stretch true inner ∧
      closer ∈ Mark.closers ∧ Within n rest

theorem within_lexeme (n : Nat) (x : Lexeme) (xs : List Lexeme) (hx : x.fits (n != 0) = true)
    (h : Within n xs) : Within n (x :: xs) := by
  cases n with
  | zero => exact .lexeme false x xs hx h
  | succ n =>
    obtain ⟨inner, closer, rest, rfl, hi, hc, hr⟩ := h
    exact ⟨x :: inner, closer, rest, rfl, .lexeme true x inner hx hi, hc, hr⟩

theorem within_opener (n : Nat) (opener : Char) (xs : List Lexeme) (ho : opener ∈ Mark.openers)
    (h : Within (n + 1) xs) : Within n (.mark opener :: xs) := by
  obtain ⟨inner, closer, rest, rfl, hi, hc, hr⟩ := h
  cases n with
  | zero => exact .group false opener closer inner rest ho hi hc hr
  | succ n =>
    obtain ⟨inner', closer', rest', rfl, hi', hc', hr'⟩ := hr
    exact ⟨.mark opener :: (inner ++ .mark closer :: inner'), closer', rest', by simp,
      .group true opener closer inner inner' ho hi hc hi', hc', hr'⟩

theorem ne_of_mem_closers (c : Char) (h : c ∈ Mark.closers) :
    c ≠ '{' ∧ c ≠ '}' ∧ c ≠ ';' ∧ c ∉ Mark.openers := by
  simp only [Mark.closers, List.mem_cons, List.not_mem_nil, or_false] at h
  rcases h with rfl | rfl <;> decide

theorem within_closer (n : Nat) (closer : Char) (xs : List Lexeme) (hc : closer ∈ Mark.closers)
    (h : Within (n - 1) xs) : Within n (.mark closer :: xs) := by
  cases n with
  | zero =>
    obtain ⟨ho, hl, hs, hn⟩ := ne_of_mem_closers closer hc
    exact .lexeme false _ xs (by simp [Lexeme.fits, ho, hl, hs, hn]) h
  | succ n => exact ⟨[], closer, xs, rfl, .nil true, hc, h⟩

/-- What is left of a sheet from the start of an item within so many open blocks. -/
def Remains : Nat → List Lexeme → Prop
  | 0, xs => Sheet xs
  | n + 1, xs => ∃ inner last rest, xs = inner ++ (last ++ .mark '}' :: rest) ∧ Items inner ∧
      Stretch false last ∧ Remains n rest

theorem remains_declaration (n : Nat) (text xs : List Lexeme) (ht : Stretch false text)
    (h : Remains n xs) : Remains n (text ++ .mark ';' :: xs) := by
  cases n with
  | zero =>
    obtain ⟨items, last, rfl, hi, hl⟩ := h
    exact ⟨text ++ .mark ';' :: items, last, by simp, .declaration text items ht hi, hl⟩
  | succ n =>
    obtain ⟨inner, last, rest, rfl, hi, hl⟩ := h
    exact ⟨text ++ .mark ';' :: inner, last, rest, by simp, .declaration text inner ht hi, hl⟩

theorem remains_opening (n : Nat) (prelude xs : List Lexeme) (hp : Stretch false prelude)
    (h : Remains (n + 1) xs) : Remains n (prelude ++ .mark '{' :: xs) := by
  obtain ⟨inner, last, rest, rfl, hi, hl, hr⟩ := h
  cases n with
  | zero =>
    obtain ⟨items, final, rfl, hi', hf⟩ := hr
    exact ⟨prelude ++ .mark '{' :: (inner ++ (last ++ .mark '}' :: items)), final, by simp,
      .block prelude inner last items hp hi hl hi', hf⟩
  | succ n =>
    obtain ⟨inner', last', rest', rfl, hi', hr'⟩ := hr
    exact ⟨prelude ++ .mark '{' :: (inner ++ (last ++ .mark '}' :: inner')), last', rest', by simp,
      .block prelude inner last inner' hp hi hl hi', hr'⟩

theorem remains_closing (n : Nat) (last xs : List Lexeme) (hl : Stretch false last)
    (h : Remains n xs) : Remains (n + 1) (last ++ .mark '}' :: xs) :=
  ⟨[], last, xs, rfl, .nil, hl, h⟩

/-- Where a text goes on from within some brackets and in front of what may follow any text: only
at the end of a sheet the text has to be blank. -/
def Splits (blocks depth : Nat) (solid : Bool) (xs : List Lexeme) : Prop :=
  ∃ text rest, xs = text ++ rest ∧ Within depth text ∧
    ∀ whole, Stretch false whole →
      ((solid || text.any Lexeme.isSolid) = false → whole.any Lexeme.isSolid = false) →
      Remains blocks (whole ++ rest)

theorem remains_of_splits (blocks : Nat) (xs : List Lexeme) (h : Splits blocks 0 false xs) :
    Remains blocks xs := by
  obtain ⟨text, rest, rfl, ht, hr⟩ := h
  exact hr text ht (by simp)

theorem splits_cons (blocks depth n : Nat) (solid : Bool) (x : Lexeme) (xs : List Lexeme)
    (hw : ∀ text, Within n text → Within depth (x :: text))
    (h : Splits blocks n (solid || x.isSolid) xs) : Splits blocks depth solid (x :: xs) := by
  obtain ⟨text, rest, rfl, ht, hr⟩ := h
  refine ⟨x :: text, rest, rfl, hw text ht, fun whole hs hb => hr whole hs fun hf => hb ?_⟩
  simpa [Bool.or_assoc] using hf

theorem splits_of_remains (blocks : Nat) (solid : Bool) (xs : List Lexeme)
    (h : ∀ whole, Stretch false whole → Remains blocks (whole ++ xs)) :
    Splits blocks 0 solid xs :=
  ⟨[], xs, rfl, .nil false, fun whole hs _ => h whole hs⟩

theorem splits_of_closes (blocks depth : Nat) (solid : Bool) (xs : List Lexeme)
    (h : closes blocks depth solid xs = true) : Splits blocks depth solid xs := by
  fun_induction closes blocks depth solid xs with
  | case1 blocks depth solid =>
    simp only [Bool.and_eq_true, beq_iff_eq, Bool.not_eq_true'] at h
    obtain ⟨⟨rfl, rfl⟩, rfl⟩ := h
    exact ⟨[], [], rfl, .nil false, fun whole hs hb =>
      ⟨[], whole, by simp, .nil, hs, hb rfl⟩⟩
  | case2 blocks depth solid c xs hc ih =>
    have hc' : c ∈ Mark.openers := List.contains_iff_mem.mp hc
    refine splits_cons blocks depth (depth + 1) solid (.mark c) xs
      (fun text => within_opener depth c text hc') ?_
    simpa [Lexeme.isSolid, Mark.openers_solid c hc'] using ih h
  | case3 blocks depth solid c xs _ hc ih =>
    have hc' : c ∈ Mark.closers := List.contains_iff_mem.mp hc
    refine splits_cons blocks depth (depth - 1) solid (.mark c) xs
      (fun text => within_closer depth c text hc') ?_
    simpa [Lexeme.isSolid, Mark.closers_solid c hc'] using ih h
  | case4 blocks depth solid c xs _ _ hc ih =>
    obtain rfl := beq_iff_eq.mp hc
    simp only [Bool.and_eq_true, beq_iff_eq] at h
    obtain ⟨rfl, h⟩ := h
    exact splits_of_remains blocks solid _ fun whole hs =>
      remains_opening blocks whole xs hs (remains_of_splits _ _ (ih h))
  | case5 blocks depth solid c xs _ _ _ hc ih =>
    obtain rfl := beq_iff_eq.mp hc
    simp only [Bool.and_eq_true, beq_iff_eq, bne_iff_ne] at h
    obtain ⟨⟨rfl, hb⟩, h⟩ := h
    obtain ⟨n, rfl⟩ := Nat.exists_eq_succ_of_ne_zero hb
    exact splits_of_remains _ solid _ fun whole hs =>
      remains_closing n whole xs hs (remains_of_splits _ _ (ih h))
  | case6 blocks depth solid c xs _ _ _ _ hc ih =>
    simp only [Bool.and_eq_true, beq_iff_eq] at hc
    obtain ⟨rfl, rfl⟩ := hc
    exact splits_of_remains blocks solid _ fun whole hs =>
      remains_declaration blocks whole xs hs (remains_of_splits _ _ (ih h))
  | case7 blocks depth solid c xs ho hl hb he hs ih =>
    refine splits_cons blocks depth depth solid (.mark c) xs
      (fun text => within_lexeme depth _ text ?_) (ih h)
    cases depth <;> simp_all [Lexeme.fits]
  | case8 blocks depth solid x xs _ ih =>
    obtain ⟨hx, h⟩ := Bool.and_eq_true_iff.mp h
    exact splits_cons blocks depth depth solid x xs (fun text => within_lexeme depth x text hx)
      (ih h)

/-! ## What is derived is accepted -/

theorem closes_opener (blocks depth : Nat) (solid : Bool) (c : Char) (xs : List Lexeme)
    (hc : c ∈ Mark.openers) :
    closes blocks depth solid (.mark c :: xs) = closes blocks (depth + 1) true xs :=
  if_pos (List.contains_iff_mem.mpr hc)

theorem closes_closer (blocks depth : Nat) (solid : Bool) (c : Char) (xs : List Lexeme)
    (hc : c ∈ Mark.closers) :
    closes blocks depth solid (.mark c :: xs) = closes blocks (depth - 1) true xs :=
  (if_neg (by simpa using (ne_of_mem_closers c hc).2.2.2)).trans
    (if_pos (List.contains_iff_mem.mpr hc))

theorem closes_lexeme (blocks depth : Nat) (solid : Bool) (x : Lexeme) (xs : List Lexeme)
    (hx : x.fits (depth != 0) = true) :
    closes blocks depth solid (x :: xs) = closes blocks depth (solid || x.isSolid) xs := by
  cases x with
  | mark c =>
    by_cases hc : c ∈ Mark.closers
    · have hd : depth = 0 := by
        by_contra hd
        simp [Lexeme.fits, hd, hc] at hx
      rw [closes_closer blocks depth solid c xs hc, hd]
      simp [Lexeme.isSolid, Mark.closers_solid c hc]
    · cases depth <;> simp_all [Lexeme.fits, closes, Lexeme.isSolid]
  | _ => simp [closes, hx]

/-- A text is passed by, with all its groups closed again. -/
theorem closes_stretch (nested : Bool) (text : List Lexeme) (ht : Stretch nested text) :
    ∀ (blocks depth : Nat) (solid : Bool) (xs : List Lexeme), nested = (depth != 0) →
      closes blocks depth solid (text ++ xs) =
        closes blocks depth (solid || text.any Lexeme.isSolid) xs := by
  induction ht with
  | nil => simp
  | lexeme nested x text hx _ ih =>
    rintro blocks depth solid xs rfl
    rw [List.cons_append, closes_lexeme _ _ _ _ _ hx, ih _ _ _ _ rfl]
    simp [Bool.or_assoc]
  | group nested opener closer inner text ho _ hc _ ihi ih =>
    rintro blocks depth solid xs rfl
    have hs : Lexeme.isSolid (.mark opener) = true := by
      simp [Lexeme.isSolid, Mark.openers_solid opener ho]
    rw [List.cons_append, closes_opener _ _ _ _ _ ho, List.append_assoc,
      ihi _ _ _ _ (by simp), List.cons_append, closes_closer _ _ _ _ _ hc, Nat.add_sub_cancel,
      ih _ _ _ _ rfl]
    simp [hs]

theorem closes_semicolon (blocks : Nat) (solid : Bool) (xs : List Lexeme) :
    closes blocks 0 solid (.mark ';' :: xs) = closes blocks 0 false xs := rfl

theorem closes_opening (blocks depth : Nat) (solid : Bool) (xs : List Lexeme) :
    closes blocks depth solid (.mark '{' :: xs) = (depth == 0 && closes (blocks + 1) 0 false xs) :=
  rfl

theorem closes_closing (blocks depth : Nat) (solid : Bool) (xs : List Lexeme) :
    closes blocks depth solid (.mark '}' :: xs) =
      (depth == 0 && blocks != 0 && closes (blocks - 1) 0 false xs) := rfl

theorem closes_items (items : List Lexeme) (h : Items items) :
    ∀ (blocks : Nat) (xs : List Lexeme),
      closes blocks 0 false (items ++ xs) = closes blocks 0 false xs := by
  induction h with
  | nil => simp
  | declaration text rest ht _ ih =>
    intro blocks xs
    rw [List.append_assoc, closes_stretch false text ht _ _ _ _ rfl, List.cons_append,
      closes_semicolon, ih]
  | block prelude inner last rest hp _ hl _ ihi ih =>
    intro blocks xs
    simp only [List.append_assoc, List.cons_append]
    rw [closes_stretch false prelude hp _ _ _ _ rfl, closes_opening, ihi,
      closes_stretch false last hl _ _ _ _ rfl, closes_closing, Nat.add_sub_cancel, ih]
    simp

theorem closes_iff_sheet (xs : List Lexeme) : closes 0 0 false xs = true ↔ Sheet xs := by
  constructor
  · exact fun h => remains_of_splits 0 xs (splits_of_closes 0 0 false xs h)
  · rintro ⟨items, last, rfl, hi, hl, hb⟩
    rw [closes_items items hi, ← List.append_nil last, closes_stretch false last hl _ _ _ _ rfl, hb]
    rfl

end Grammar

end NestedCss
