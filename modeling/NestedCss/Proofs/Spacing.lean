import NestedCss.Proofs.Modes
import NestedCss.Proofs.Residue

/-!
# Spacing

A statement is made of items: strings in quotes, and single characters outside of strings and
comments. Between two neighbouring items stands one space if blanks or a comment came between them
and neither of the two characters that meet is a tight mark where the second item lies, and nothing
otherwise. Each statement is so spaced and then trimmed, whatever strings, comments and brackets lie
before it.
-/

set_option autoImplicit false

namespace NestedCss.Scan

/-- What comes in a row in a source: items, each with the number of open brackets around it, its own
left aside, gaps between them, and the characters that end statements. -/
inductive Part where
  | item (text : Text) (depth : Nat)
  | gap
  | stop (c : Char)
  deriving DecidableEq, Repr

namespace Place

/-- The depth around a character that stands bare, a bracket of its own left aside. -/
def around (depth : Nat) (c : Char) : Nat := if Mark.closers.contains c then depth - 1 else depth

/-- The parts of a text from a place on. `held` is what there is of the string around the place. A
string that a line break cuts off ends before the break. -/
def parts : Place → Text → Text → List Part
  | .string _ n, held, [] => [.item held n]
  | _, _, [] => []
  | .bare n, _, '/' :: '*' :: r => .gap :: parts (.block n) [] r
  | .bare 0, _, '/' :: '/' :: r => .gap :: parts .line [] r
  | .bare n, _, c :: r =>
    if c == '{' || c == '}' then .stop c :: parts (.bare 0) [] r
    else if c == ';' && n == 0 then .stop c :: parts (.bare 0) [] r
    else if Mark.quotes.contains c then parts (.string c n) [c] r
    else if Mark.spacing.contains c then .gap :: parts (.bare n) [] r
    else .item [c] (around n c) :: parts (.bare (deepen n c)) [] r
  | .block n, _, '*' :: '/' :: r => parts (.bare n) [] r
  | .block n, _, _ :: r => parts (.block n) [] r
  | .line, _, c :: r => if c == '\n' then .gap :: parts (.bare 0) [] r else parts .line [] r
  | .string q n, held, '\\' :: c :: r => parts (.string q n) (held ++ ['\\', c]) r
  | .string q n, held, c :: r =>
    if c == '\n' then .item held n :: parts (.bare n) [] r
    else if c == q then .item (held ++ [c]) n :: parts (.bare n) [] r
    else parts (.string q n) (held ++ [c]) r

end Place

structure Item where
  text : Text
  /-- Whether a gap lies before it. -/
  apart : Bool
  /-- The number of open brackets around it. -/
  depth : Nat
  deriving DecidableEq, Repr

/-- Whether a character, if there is one, is no tight mark within so many brackets. -/
def Item.loose (depth : Nat) (c : Option Char) : Bool :=
  !c.any (Mark.tight (depth > 0)).contains

/-- What stands between two neighbouring items. -/
def Item.between (a b : Item) : Text :=
  if b.apart && loose b.depth a.text.getLast? && loose b.depth b.text.head? then [' '] else []

/-- The items in a row, spaced. -/
def Item.spaced : List Item → Text
  | [] => []
  | [a] => a.text
  | a :: b :: items => a.text ++ (a.between b ++ spaced (b :: items))

/-- The items of a statement and the character that ends it, if the source does not. -/
structure Row where
  items : List Item
  stop : Option Char
  deriving DecidableEq, Repr

namespace Row

/-- Puts items in front of the first of some rows. -/
def behind (items : List Item) : List Row → List Row
  | [] => []
  | r :: rs => { r with items := items ++ r.items } :: rs

/-- The rows that some parts fall into. `apart` tells whether a gap comes right before them. -/
def ofParts (apart : Bool) : List Part → List Row
  | [] => [⟨[], none⟩]
  | .gap :: ps => ofParts true ps
  | .item t n :: ps => behind [⟨t, apart, n⟩] (ofParts false ps)
  | .stop c :: ps => ⟨[], some c⟩ :: ofParts false ps

/-- The declaration of a row, if it has any text. -/
def declarations (r : Row) : List Statement :=
  let text := Text.trim (Item.spaced r.items)
  if text = [] then [] else [.declaration ⟨text ++ [';'], 0⟩]

/-- The statements that a row comes to. -/
def statements (r : Row) : List Statement :=
  if r.stop = some '{' then [.opening (Text.trim (Item.spaced r.items)) 0]
  else if r.stop = some '}' then r.declarations ++ [.closing 0]
  else r.declarations

end Row

/-- The rows of items of a source. -/
def rows (source : Text) : List Row :=
  Row.ofParts false (Place.parts (.bare 0) [] (Text.unifyBreaks source))

/-! ## The parts of a lexeme -/

/-- The parts that a lexeme stands for within so many brackets. -/
def Lexeme.parts (depth : Nat) : Lexeme → List Part
  | .blank _ => [.gap]
  | .blockComment _ _ => [.gap]
  | .lineComment _ => [.gap]
  | .quotation q body ending => [.item (Draft.stringText q body ending) depth]
  | .mark c =>
    if c == '{' || c == '}' || c == ';' && depth == 0 then [.stop c]
    else [.item [c] (Place.around depth c)]

namespace Place

attribute [local simp] parts

theorem parts_string (q : Char) (n : Nat) (held t : Text) :
    parts (.string q n) held t =
      .item (held ++ ((readString q t).1 ++
        if (readString q t).2.1 = .closed then [q] else [])) n ::
        parts (.bare n) [] (readString q t).2.2 := by
  fun_induction readString q t generalizing held with
  | case1 => simp
  | case2 => simp
  | case3 c r body ending rest hr ih => simp [ih, hr]
  | case4 c r h₁ h₂ hc =>
    obtain rfl : c = '\n' := by simpa using hc
    simp
  | case5 c r h₁ h₂ hn hc =>
    obtain rfl : c = q := by simpa using hc
    have hb := ne_backslash c r h₁ h₂
    rw [parts]
    · simp [hn]
    · exact fun _ _ he => absurd he hb
  | case6 c r h₁ h₂ hn hc body ending rest hr ih =>
    have hb := ne_backslash c r h₁ h₂
    rw [parts]
    · simp_all
    · exact fun _ _ he => absurd he hb

theorem parts_bare (n : Nat) (held : Text) (c : Char) (r : Text) (h : c = '/' → Separate n r) :
    parts (.bare n) held (c :: r) =
      if c == '{' || c == '}' then .stop c :: parts (.bare 0) [] r
      else if c == ';' && n == 0 then .stop c :: parts (.bare 0) [] r
      else if Mark.quotes.contains c then parts (.string c n) [c] r
      else if Mark.spacing.contains c then .gap :: parts (.bare n) [] r
      else .item [c] (around n c) :: parts (.bare (deepen n c)) [] r := by
  rw [parts]
  · rintro s rfl rfl
    exact (h rfl).1 rfl
  · rintro s rfl rfl rfl
    exact (h rfl).2 rfl rfl

theorem parts_block (n : Nat) (t : Text) :
    parts (.block n) [] t = parts (.bare n) [] (readComment t).2.2 := by
  fun_induction readComment t with
  | case1 => simp
  | case2 r => simp
  | case3 c r h body closed rest hr ih =>
    rw [parts]
    · rw [ih, hr]
    · exact h

theorem parts_line (t : Text) :
    parts .line [] t = parts (.bare 0) [] (t.dropWhile (· != '\n')) := by
  induction t with
  | nil => simp
  | cons c r ih =>
    by_cases hc : c = '\n'
    · subst hc
      rw [parts, List.dropWhile_cons_of_neg (by simp), parts_bare 0 [] '\n' r (by simp)]
      simp [Mark.quotes, Mark.spacing]
    · rw [parts, List.dropWhile_cons_of_pos (by simpa using hc), ← ih]
      simp [hc]

end Place

theorem parts_next (n : Nat) (t r : Text) (x : Lexeme) (h : next? n t = some (x, r)) :
    Place.parts (.bare n) [] t = x.parts n ++ Place.parts (.bare (x.depthAfter n)) [] r := by
  cases t with
  | nil => simp [next?] at h
  | cons c s =>
    by_cases hs : c = '/' → Separate n s
    · rw [next?_cons n c s hs] at h
      rw [Place.parts_bare n [] c s hs]
      split_ifs at h with hq hb
      · obtain ⟨rfl, rfl⟩ := Prod.mk.inj (Option.some.inj h)
        obtain ⟨ho, hc, hl⟩ : c ≠ '{' ∧ c ≠ '}' ∧ c ≠ ';' := by
          refine ⟨?_, ?_, ?_⟩ <;> rintro rfl <;> exact absurd hq (by decide)
        have hp := Place.parts_string c n [c] s
        rw [List.singleton_append, ← Mode.stringText_eq] at hp
        rw [if_neg (by simp [ho, hc]), if_neg (by simp [hl]), if_pos hq]
        exact hp
      · obtain ⟨rfl, rfl⟩ := Prod.mk.inj (Option.some.inj h)
        have hm : c ∈ Mark.spacing := by simpa using hb
        simp only [Mark.spacing, List.mem_cons, List.not_mem_nil, or_false] at hm
        rcases hm with rfl | rfl | rfl <;> rfl
      · obtain ⟨rfl, rfl⟩ := Prod.mk.inj (Option.some.inj h)
        by_cases ho : c = '{'
        · subst ho
          rfl
        by_cases hc : c = '}'
        · subst hc
          rfl
        rw [if_neg (by simp [ho, hc])]
        by_cases hl : c = ';' ∧ n = 0
        · obtain ⟨rfl, rfl⟩ := hl
          rfl
        · rw [if_neg (by simpa using hl), if_neg hq, if_neg hb, Lexeme.parts,
            if_neg (by simpa [ho, hc] using hl)]
          simp [Lexeme.depthAfter, Place.deepen, ho, hc]
    · obtain ⟨rfl, hn⟩ := Classical.not_imp.mp hs
      rcases next?_comment n s hn with ⟨u, rfl, hx⟩ | ⟨u, rfl, hd, hx⟩
      · obtain ⟨rfl, rfl⟩ := Prod.mk.inj (Option.some.inj (hx.symm.trans h))
        rw [Place.parts, Place.parts_block]
        rfl
      · obtain ⟨rfl, rfl⟩ := Prod.mk.inj (Option.some.inj (hx.symm.trans h))
        subst hd
        rw [Place.parts, Place.parts_line]
        rfl

/-! ## Rows put together -/

namespace Row

theorem behind_nil (rs : List Row) : behind [] rs = rs := by
  cases rs <;> rfl

theorem behind_behind (xs ys : List Item) (rs : List Row) :
    behind xs (behind ys rs) = behind (xs ++ ys) rs := by
  cases rs with
  | nil => rfl
  | cons r rs => simp [behind]

end Row

namespace Item

theorem spaced_concat (xs : List Item) (a b : Item) :
    spaced (xs ++ [a, b]) = spaced (xs ++ [a]) ++ a.between b ++ b.text := by
  induction xs with
  | nil => simp [spaced]
  | cons x xs ih =>
    cases xs with
    | nil => simp [spaced]
    | cons y xs =>
      simp only [List.cons_append, spaced] at ih ⊢
      rw [ih]
      simp

theorem last_spaced (xs : List Item) (a : Item) (h : a.text ≠ []) :
    (spaced (xs ++ [a])).getLast? = a.text.getLast? := by
  rcases List.eq_nil_or_concat xs with rfl | ⟨xs, b, rfl⟩
  · rfl
  · rw [List.concat_eq_append, List.append_assoc, List.singleton_append, spaced_concat,
      List.getLast?_append_of_ne_nil _ h]

end Item

/-! ## Drafts of items -/

/-- Whether a draft is what some items come to. -/
structure Draft.Holds (d : Draft) (items : List Item) : Prop where
  written_eq : d.written.reverse = Item.spaced items
  inked : ∀ x ∈ items, x.text ≠ []

namespace Draft.Holds

variable {d : Draft} {items : List Item}

theorem empty : Draft.empty.Holds [] := ⟨rfl, by simp⟩

theorem text_eq (h : d.Holds items) : d.text = Text.trim (Item.spaced items) := by
  rw [Draft.text, h.written_eq]

theorem declarations_eq (h : d.Holds items) (line : Int) (stop : Option Char) :
    (d.declarations line).map Statement.unplaced = Row.declarations ⟨items, stop⟩ := by
  rw [declarations, declaration?, Row.declarations, h.text_eq]
  split <;> rfl

theorem glue_nil (h : d.Holds []) (piece : Text) : d.glue piece = [] := by
  have hw : d.written = [] := by simpa [Item.spaced] using h.written_eq
  simp [glue, spaces_eq, hw]

theorem glue_eq (items : List Item) (a : Item) (h : d.Holds (items ++ [a])) (piece : Text)
    (hp : piece ≠ []) : d.glue piece = a.between ⟨piece, d.gap, d.depth⟩ := by
  have ha : a.text ≠ [] := h.inked a (by simp)
  have hl : d.written.head? = a.text.getLast? := by
    rw [← List.getLast?_reverse, h.written_eq, Item.last_spaced items a ha]
  obtain ⟨b, r, rfl⟩ := List.exists_cons_of_ne_nil hp
  have hs : d.spaces (b :: r) =
      (d.gap && Item.loose d.depth a.text.getLast? && Item.loose d.depth (some b)) := by
    rw [spaces_eq, hl, List.getLast?_eq_some_getLast ha]
    simp [Item.loose, isTight, Bool.and_assoc]
  rw [glue, hs]
  rfl

/-- A piece goes into the draft as the next item. -/
theorem put (h : d.Holds items) (piece : Text) (hp : piece ≠ []) :
    (d.put piece).Holds (items ++ [⟨piece, d.gap, d.depth⟩]) := by
  refine ⟨?_, fun x hx => ?_⟩
  · rw [written_put, h.written_eq]
    rcases List.eq_nil_or_concat items with rfl | ⟨xs, a, rfl⟩
    · simp [h.glue_nil piece, Item.spaced]
    · rw [List.concat_eq_append] at h ⊢
      rw [h.glue_eq xs a piece hp, List.append_assoc xs, List.singleton_append,
        Item.spaced_concat]
  · rcases List.mem_append.mp hx with hx | hx
    · exact h.inked x hx
    · rw [List.mem_singleton.mp hx]
      exact hp

theorem gapped (h : d.Holds items) : ({ d with gap := true } : Draft).Holds items :=
  ⟨h.written_eq, h.inked⟩

theorem withDepth (h : d.Holds items) (n : Nat) : ({ d with depth := n } : Draft).Holds items :=
  ⟨h.written_eq, h.inked⟩

end Draft.Holds

/-- What is said by some parts behind the items of a draft. -/
def Row.told (items : List Item) (apart : Bool) (ps : List Part) : List Statement :=
  (behind items (ofParts apart ps)).flatMap statements

namespace Draft

variable (d : Draft) (items : List Item)

/-- A lexeme moves the parts it stands for into the draft or into the statements that it ends. -/
def Moves (line : Int) (x : Lexeme) : Prop :=
  ∃ items', (d.step line x).draft.Holds items' ∧ ∀ ps,
    Row.told items d.gap (x.parts d.depth ++ ps) =
      (d.step line x).statements.map Statement.unplaced ++
        Row.told items' (d.step line x).draft.gap ps

theorem told_item (piece : Text) (depth : Nat) (ps : List Part) :
    Row.told items d.gap (.item piece depth :: ps) =
      Row.told (items ++ [⟨piece, d.gap, depth⟩]) false ps := by
  rw [Row.told, Row.ofParts, Row.behind_behind]
  rfl

theorem told_stop (apart : Bool) (c : Char) (ps : List Part) :
    Row.told items apart (.stop c :: ps) =
      Row.statements ⟨items, some c⟩ ++ Row.told [] false ps := by
  rw [Row.told, Row.told, Row.behind_nil, Row.ofParts, Row.behind, List.flatMap_cons,
    List.append_nil]

variable {d items}

theorem moves_mark (h : d.Holds items) (line : Int) (c : Char) : d.Moves items line (.mark c) := by
  by_cases ho : c = '{'
  · subst ho
    refine ⟨[], Holds.empty, fun ps => (told_stop items d.gap '{' ps).trans ?_⟩
    rw [Row.statements, if_pos rfl, ← h.text_eq]
    rfl
  by_cases hc : c = '}'
  · subst hc
    refine ⟨[], Holds.empty, fun ps => (told_stop items d.gap '}' ps).trans ?_⟩
    have hm : (d.step line (.mark '}')).statements =
        d.declarations line ++ [Statement.closing line] := rfl
    rw [Row.statements, if_neg (by simp), if_pos rfl, ← h.declarations_eq line, hm,
      List.map_append]
    rfl
  by_cases hl : c = ';' ∧ d.depth = 0
  · obtain ⟨rfl, hd⟩ := hl
    have hm : d.step line (.mark ';') = ⟨Draft.empty, [], d.declarations line⟩ := by
      simp [step, mark, Mark.openers, Mark.closers, hd]
    have hp : Lexeme.parts d.depth (.mark ';') = [.stop ';'] := by simp [Lexeme.parts, hd]
    rw [Moves, hm, hp]
    refine ⟨[], Holds.empty, fun ps => (told_stop items d.gap ';' ps).trans ?_⟩
    rw [Row.statements, if_neg (by simp), if_neg (by simp), ← h.declarations_eq line]
    rfl
  -- any other mark is an item, at the depth outside the bracket that it may be
  have hp : Lexeme.parts d.depth (.mark c) = [.item [c] (Place.around d.depth c)] := by
    rw [Lexeme.parts, if_neg (by simpa [ho, hc] using hl)]
  rw [Moves, hp]
  simp only [step, mark, Place.around, beq_iff_eq, ho, hc, if_false]
  split_ifs
  · next hopen hclose =>
    exact absurd (by simpa using hclose) (Mark.openers_not_closers c (by simpa using hopen))
  · exact ⟨_, (h.put [c] (by simp)).withDepth _, fun ps => told_item d items [c] _ ps⟩
  · exact ⟨_, (h.withDepth _).put [c] (by simp), fun ps => told_item d items [c] _ ps⟩
  · next hstop => exact absurd (by simpa using hstop) hl
  · exact ⟨_, h.put [c] (by simp), fun ps => told_item d items [c] _ ps⟩

theorem moves_step (h : d.Holds items) (line : Int) (x : Lexeme) : d.Moves items line x := by
  cases x with
  | mark c => exact moves_mark h line c
  | quotation q body ending =>
    have hp : stringText q body ending ≠ [] := by cases ending <;> simp [stringText]
    exact ⟨_, h.put _ hp, fun ps => told_item d items _ d.depth ps⟩
  | _ => exact ⟨items, h.gapped, fun ps => rfl⟩

end Draft

theorem told_readText (n : Nat) (line : Int) (d : Draft) (items : List Item) (t : Text)
    (hn : d.depth = n) (h : d.Holds items) :
    (readText line d t).statements.map Statement.unplaced =
      Row.told items d.gap (Place.parts (.bare n) [] t) := by
  induction n, t using lexemes.induct generalizing line d items with
  | case1 n t hx =>
    obtain rfl := (next?_eq_none_iff n t).mp hx
    rw [readText_nil, Draft.stop, h.declarations_eq line none]
    simp [Place.parts, Row.told, Row.ofParts, Row.behind, Row.statements]
  | case2 n t x r hx ih =>
    subst hn
    obtain ⟨items', h', ht⟩ := Draft.moves_step h line x
    have hr := ih (line + x.breaks) (d.step line x).draft items' (Draft.depth_step d line x) h'
    rw [readText_next line d t r x hx, Reading.prepend, List.map_append, hr,
      parts_next d.depth t r x hx, ht]

/-- Every statement is the items of its row, spaced and trimmed. -/
theorem statements_are_spaced (source : Text) :
    (readSource source).statements.map Statement.unplaced =
      (rows source).flatMap Row.statements := by
  have h := told_readText 0 1 Draft.empty [] (Text.unifyBreaks source) rfl Draft.Holds.empty
  rwa [Row.told, Row.behind_nil] at h

example : (rows "a > b/**/'c' \x7b d : f( 1 + 2 ,3 ) ;".toList).map (fun r => Item.spaced r.items) =
    ["a>b 'c'".toList, "d:f( 1 + 2,3 )".toList, []] := by decide +kernel

end NestedCss.Scan
