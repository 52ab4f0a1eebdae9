import NestedCss.Proofs.Drafts
import NestedCss.Proofs.Relexing
import NestedCss.Proofs.Watching

/-!
# What a source leaves behind

Off its comments a source is a row of characters and bare braces. Reading moves blanks and
semicolons about and nothing else: what is left of the source without them is what is left of its
statements, in the same order, however badly strings, brackets and blocks are closed.
-/

set_option autoImplicit false

namespace NestedCss.Scan

/-- A character, or a brace that stands outside strings and comments. -/
inductive Glyph where
  | char (c : Char)
  | opening
  | closing
  deriving DecidableEq, Repr

/-- Where a character of a source stands, with the depth of open brackets around it. -/
inductive Place where
  | bare (depth : Nat)
  | block (depth : Nat)
  | line
  | string (quote : Char) (depth : Nat)
  deriving DecidableEq, Repr

namespace Place

/-- The depth behind a character that stands bare. -/
def deepen (depth : Nat) (c : Char) : Nat :=
  if Mark.openers.contains c then depth + 1
  else if Mark.closers.contains c then depth - 1
  else depth

/-- A text from a place on, without its comments. -/
def glyphs : Place → Text → List Glyph
  | _, [] => []
  | .bare n, '/' :: '*' :: r => glyphs (.block n) r
  | .bare 0, '/' :: '/' :: r => glyphs .line r
  | .bare n, c :: r =>
    if c == '{' then .opening :: glyphs (.bare 0) r
    else if c == '}' then .closing :: glyphs (.bare 0) r
    else if Mark.quotes.contains c then .char c :: glyphs (.string c n) r
    else .char c :: glyphs (.bare (deepen n c)) r
  | .block n, '*' :: '/' :: r => glyphs (.bare n) r
  | .block n, _ :: r => glyphs (.block n) r
  | .line, c :: r => if c == '\n' then .char c :: glyphs (.bare 0) r else glyphs .line r
  | .string q n, '\\' :: c :: r => .char '\\' :: .char c :: glyphs (.string q n) r
  | .string q n, c :: r =>
    .char c :: if c == q || c == '\n' then glyphs (.bare n) r else glyphs (.string q n) r

end Place

/-- The glyphs that a statement stands for. -/
def glyphsOf : Statement → List Glyph
  | .opening t _ => t.map .char ++ [.opening]
  | .closing _ => [.closing]
  | .declaration d => d.text.map .char
  | .ending t _ => t.map .char
  | .bare t _ => t.map .char

/-- Whether a glyph is neither a blank nor a semicolon. -/
def Glyph.counts : Glyph → Bool
  | .char c => !Text.isBlank c && c != ';'
  | _ => true

def residue (gs : List Glyph) : List Glyph := gs.filter Glyph.counts

theorem residue_append (gs hs : List Glyph) : residue (gs ++ hs) = residue gs ++ residue hs :=
  List.filter_append ..

theorem residue_blanks (t : Text) (h : ∀ c ∈ t, Text.isBlank c = true) :
    residue (t.map .char) = [] := by
  simp only [residue, List.filter_eq_nil_iff, List.mem_map]
  rintro g ⟨c, hc, rfl⟩
  simp [Glyph.counts, h c hc]

theorem residue_trim (t : Text) : residue ((Text.trim t).map .char) = residue (t.map .char) := by
  obtain ⟨front, back, ht, hf, hb⟩ := Path.Watch.trim_split t
  conv_rhs => rw [ht]
  simp only [List.map_append, residue_append, residue_blanks front hf, residue_blanks back hb,
    List.nil_append, List.append_nil]

/-! ## The glyphs of a lexeme -/

namespace Place

attribute [local simp] glyphs

theorem glyphs_bare (n : Nat) (c : Char) (r : Text) (h : c = '/' → Separate n r) :
    glyphs (.bare n) (c :: r) =
      if c == '{' then .opening :: glyphs (.bare 0) r
      else if c == '}' then .closing :: glyphs (.bare 0) r
      else if Mark.quotes.contains c then .char c :: glyphs (.string c n) r
      else .char c :: glyphs (.bare (deepen n c)) r := by
  rw [glyphs]
  · rintro s rfl rfl
    exact (h rfl).1 rfl
  · rintro s rfl rfl rfl
    exact (h rfl).2 rfl rfl

theorem glyphs_string (q : Char) (n : Nat) (t : Text) :
    glyphs (.string q n) t =
      ((readString q t).1 ++ (readString q t).2.1.source q).map .char ++
        glyphs (.bare n) (readString q t).2.2 := by
  fun_induction readString q t with
  | case1 => simp [StringEnd.source]
  | case2 => simp [StringEnd.source]
  | case3 c r body ending rest hr ih => simp [ih, hr]
  | case4 c r h₁ h₂ hc =>
    obtain rfl : c = '\n' := by simpa using hc
    simp [StringEnd.source]
  | case5 c r h₁ h₂ hn hc =>
    obtain rfl : c = q := by simpa using hc
    have hb := ne_backslash c r h₁ h₂
    rw [glyphs]
    · simp [StringEnd.source]
    · exact fun _ _ he => absurd he hb
  | case6 c r h₁ h₂ hn hc body ending rest hr ih =>
    have hb := ne_backslash c r h₁ h₂
    rw [glyphs]
    · simp_all
    · exact fun _ _ he => absurd he hb

theorem glyphs_block (n : Nat) (t : Text) :
    glyphs (.block n) t = glyphs (.bare n) (readComment t).2.2 := by
  fun_induction readComment t with
  | case1 => simp
  | case2 r => simp
  | case3 c r h body closed rest hr ih =>
    rw [glyphs]
    · rw [ih, hr]
    · exact h

theorem glyphs_line (t : Text) : glyphs .line t = glyphs (.bare 0) (t.dropWhile (· != '\n')) := by
  induction t with
  | nil => simp
  | cons c r ih =>
    by_cases hc : c = '\n'
    · subst hc
      rw [glyphs, List.dropWhile_cons_of_neg (by simp), glyphs_bare 0 '\n' r (by simp)]
      simp [Mark.quotes, deepen, Mark.openers, Mark.closers]
    · rw [glyphs, List.dropWhile_cons_of_pos (by simpa using hc), ← ih]
      simp [hc]

end Place

/-- The glyphs that a lexeme leaves, comments and blanks left aside. -/
def Lexeme.glyphs : Lexeme → List Glyph
  | .blank _ => []
  | .blockComment _ _ => []
  | .lineComment _ => []
  | .quotation q body ending => (q :: body ++ ending.source q).map .char
  | .mark c => if c == '{' then [.opening] else if c == '}' then [.closing] else [.char c]

theorem residue_next (n : Nat) (t r : Text) (x : Lexeme) (h : next? n t = some (x, r)) :
    residue (Place.glyphs (.bare n) t) =
      residue x.glyphs ++ residue (Place.glyphs (.bare (x.depthAfter n)) r) := by
  cases t with
  | nil => simp [next?] at h
  | cons c s =>
    by_cases hs : c = '/' → Separate n s
    · rw [next?_cons n c s hs] at h
      rw [Place.glyphs_bare n c s hs]
      split_ifs at h with hq hb
      · obtain ⟨rfl, rfl⟩ := Prod.mk.inj (Option.some.inj h)
        obtain ⟨ho, hc⟩ : c ≠ '{' ∧ c ≠ '}' := by
          constructor <;> rintro rfl <;> exact absurd hq (by decide)
        simp only [hq, ho, hc, beq_iff_eq, if_false, if_true, Place.glyphs_string, Lexeme.glyphs,
          Lexeme.depthAfter, ← residue_append]
        rfl
      · obtain ⟨rfl, rfl⟩ := Prod.mk.inj (Option.some.inj h)
        have hm : c ∈ Mark.spacing := by simpa using hb
        simp only [Mark.spacing, List.mem_cons, List.not_mem_nil, or_false] at hm
        rcases hm with rfl | rfl | rfl <;> rfl
      · obtain ⟨rfl, rfl⟩ := Prod.mk.inj (Option.some.inj h)
        rw [← residue_append]
        by_cases ho : c = '{'
        · subst ho
          rfl
        by_cases hc : c = '}'
        · subst hc
          rfl
        rw [if_neg hq]
        simp [Lexeme.glyphs, Lexeme.depthAfter, Place.deepen, ho, hc]
    · obtain ⟨rfl, hn⟩ := Classical.not_imp.mp hs
      rcases next?_comment n s hn with ⟨u, rfl, hx⟩ | ⟨u, rfl, hd, hx⟩
      · obtain ⟨rfl, rfl⟩ := Prod.mk.inj (Option.some.inj (hx.symm.trans h))
        rw [Place.glyphs, Place.glyphs_block]
        rfl
      · obtain ⟨rfl, rfl⟩ := Prod.mk.inj (Option.some.inj (hx.symm.trans h))
        subst hd
        rw [Place.glyphs, Place.glyphs_line]
        rfl

/-! ## The glyphs of a draft -/

namespace Draft

def glyphs (d : Draft) : List Glyph := d.written.reverse.map .char

theorem residue_put (d : Draft) (p : Text) :
    residue (d.put p).glyphs = residue d.glyphs ++ residue (p.map .char) := by
  simp only [glyphs, written_put, List.map_append, residue_append,
    residue_blanks _ (glue_blank d p), List.append_nil]

theorem residue_text (d : Draft) : residue (d.text.map .char) = residue d.glyphs :=
  residue_trim _

theorem residue_declarations (d : Draft) (line : Int) :
    residue ((d.declarations line).flatMap glyphsOf) = residue d.glyphs := by
  rw [declarations, declaration?, ← residue_text]
  split
  · next h => rw [h]; rfl
  · simp [glyphsOf, residue, Glyph.counts]

/-- A mark goes into the draft or into the statements that it ends. -/
theorem residue_mark (d : Draft) (line : Int) (c : Char) :
    residue d.glyphs ++ residue (Lexeme.mark c).glyphs =
      residue ((d.mark line c).statements.flatMap glyphsOf) ++
        residue (d.mark line c).draft.glyphs := by
  have hput : ∀ e : Draft, e.written = d.written → c ≠ '{' → c ≠ '}' → ∀ n,
      residue d.glyphs ++ residue (Lexeme.mark c).glyphs =
        residue ({ e.put [c] with depth := n } : Draft).glyphs := by
    intro e he ho hc n
    have hg : e.glyphs = d.glyphs := by rw [glyphs, glyphs, he]
    have hp : ({ e.put [c] with depth := n } : Draft).glyphs = (e.put [c]).glyphs := rfl
    rw [hp, residue_put, hg]
    simp [Lexeme.glyphs, ho, hc]
  by_cases ho : c = '{'
  · subst ho
    have hm : d.mark line '{' = ⟨empty, d.bracketFaults line, [.opening d.text line]⟩ := rfl
    rw [hm, ← residue_text]
    simp [glyphsOf, Lexeme.glyphs, empty, glyphs, residue]
  by_cases hc : c = '}'
  · subst hc
    have hm : d.mark line '}' =
        ⟨empty, d.bracketFaults line, d.declarations line ++ [Statement.closing line]⟩ := rfl
    rw [hm, List.flatMap_append, residue_append, residue_declarations]
    simp [glyphsOf, Lexeme.glyphs, empty, glyphs, residue]
  simp only [mark, beq_iff_eq, ho, hc, if_false]
  split_ifs with hl hr hs
  · exact hput d rfl ho hc _
  · exact hput { d with depth := d.depth - 1 } rfl ho hc _
  · obtain ⟨rfl, -⟩ : c = ';' ∧ d.depth = 0 := by simpa using hs
    rw [residue_declarations]
    simp [Lexeme.glyphs, empty, glyphs, residue, Glyph.counts]
  · exact hput d rfl ho hc _

theorem residue_step (d : Draft) (line : Int) (x : Lexeme) :
    residue d.glyphs ++ residue x.glyphs =
      residue ((d.step line x).statements.flatMap glyphsOf) ++
        residue (d.step line x).draft.glyphs := by
  cases x with
  | mark c => exact residue_mark d line c
  | quotation q body ending =>
    have hb : residue ((Lexeme.quotation q body ending).glyphs) =
        residue ((stringText q body ending).map .char) := by
      cases ending with
      | broken =>
        have hn : residue (['\n'].map .char) = [] := residue_blanks ['\n'] fun c hc => by
          rw [List.mem_singleton.mp hc]; decide
        rw [Lexeme.glyphs, StringEnd.source, List.map_append, residue_append, hn, List.append_nil]
        rfl
      | _ => simp [Lexeme.glyphs, StringEnd.source, stringText]
    rw [hb, step, residue_put]
    rfl
  | _ =>
    simp only [Lexeme.glyphs, residue, List.filter_nil, List.append_nil]
    rfl

end Draft

/-- What is left of a draft and of the text behind it is left of the statements they come to. -/
theorem residue_readText (n : Nat) (line : Int) (d : Draft) (t : Text) (hn : d.depth = n) :
    residue d.glyphs ++ residue (Place.glyphs (.bare n) t) =
      residue ((readText line d t).statements.flatMap glyphsOf) := by
  induction n, t using lexemes.induct generalizing line d with
  | case1 n t hx =>
    obtain rfl := (next?_eq_none_iff n t).mp hx
    rw [readText_nil, Draft.stop, Draft.residue_declarations]
    simp [Place.glyphs, residue]
  | case2 n t x r hx ih =>
    subst hn
    have hr := ih (line + x.breaks) (d.step line x).draft (Draft.depth_step d line x)
    rw [readText_next line d t r x hx, Reading.prepend, List.flatMap_append, residue_append, ← hr,
      residue_next d.depth t r x hx, ← List.append_assoc, Draft.residue_step d line x,
      List.append_assoc]

/-- Reading loses nothing of a source and invents nothing: off comments, blanks and semicolons the
source and its statements are the same row of characters and bare braces. -/
theorem residue_readSource (source : Text) :
    residue (Place.glyphs (.bare 0) (Text.unifyBreaks source)) =
      residue ((readSource source).statements.flatMap glyphsOf) :=
  residue_readText 0 1 Draft.empty (Text.unifyBreaks source) rfl

example : residue (Place.glyphs (.bare 0) "a(\x7b/*\x7d*/'\x7d".toList) =
    [.char 'a', .char '(', .opening, .char '\x27', .char '\x7d'] := by decide +kernel

end NestedCss.Scan
