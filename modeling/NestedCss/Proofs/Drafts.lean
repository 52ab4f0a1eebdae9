import Mathlib.Data.List.TakeWhile
import NestedCss.Scan.Reading

/-!
# Drafts that read on alike

What a text comes to is its gist: the statements wherever they stand, and the causes of the faults.
Leading blanks of a draft are lost in the end and the lines are no part of the gist. So two drafts
whose texts agree from the first character that is not blank on read on alike.
-/

set_option autoImplicit false

namespace NestedCss.Text

theorem dropTail_append_blank (t p : Text) (h : ∀ c ∈ p, isBlank c = true) :
    dropTail isBlank (t ++ p) = dropTail isBlank t := by
  rw [dropTail, List.reverse_append, List.dropWhile_append_of_pos, dropTail]
  simpa using h

theorem trim_append_blank (t p : Text) (h : ∀ c ∈ p, isBlank c = true) :
    trim (t ++ p) = trim t := by
  rw [trim, trim, List.dropWhile_append]
  split
  · next hn =>
    rw [List.dropWhile_eq_nil_iff.mpr h, List.isEmpty_iff.mp hn]
  · exact dropTail_append_blank _ p h

end NestedCss.Text

namespace NestedCss.Scan

/-! ## Reading a text -/

/-- Reads a text into a draft. -/
def readText (line : Int) (d : Draft) (t : Text) : Reading := read line d (lexemes d.depth t)

namespace Draft

theorem depth_mark (d : Draft) (line : Int) (c : Char) :
    (d.mark line c).draft.depth = (Lexeme.mark c).depthAfter d.depth := by
  simp only [mark, Lexeme.depthAfter]
  split_ifs <;> simp_all [put, empty]

theorem depth_step (d : Draft) (line : Int) (x : Lexeme) :
    (d.step line x).draft.depth = x.depthAfter d.depth := by
  cases x with
  | mark c => exact depth_mark d line c
  | _ => rfl

end Draft

theorem readText_nil (line : Int) (d : Draft) :
    readText line d [] = ⟨(d.stop line).statements, (d.stop line).faults, line⟩ := by
  rw [readText, lexemes_nil, read]

theorem readText_next (line : Int) (d : Draft) (t r : Text) (x : Lexeme)
    (h : next? d.depth t = some (x, r)) :
    readText line d t = (readText (line + x.breaks) (d.step line x).draft r).prepend
      (d.step line x).statements (d.step line x).faults := by
  rw [readText, lexemes_cons d.depth t x r h, read, readText, Draft.depth_step]

/-! ## Gists -/

/-- What has been read, wherever it stood. -/
structure Gist where
  statements : List Statement
  causes : List Fault.Cause
  deriving DecidableEq

def Gist.append (g h : Gist) : Gist := ⟨g.statements ++ h.statements, g.causes ++ h.causes⟩

def Reading.gist (r : Reading) : Gist :=
  ⟨r.statements.map Statement.unplaced, r.faults.map Fault.cause⟩

def Outcome.gist (o : Outcome) : Gist :=
  ⟨o.statements.map Statement.unplaced, o.faults.map Fault.cause⟩

/-- The gist of a text that is read into a draft. -/
def gist (d : Draft) (t : Text) : Gist := (readText 1 d t).gist

theorem gist_prepend (r : Reading) (o : Outcome) :
    (r.prepend o.statements o.faults).gist = o.gist.append r.gist := by
  simp [Reading.prepend, Reading.gist, Outcome.gist, Gist.append]

theorem append_empty_gist (g : Gist) : Gist.append ⟨[], []⟩ g = g := rfl

/-! ## The core of a draft -/

namespace Draft

/-- What has been written, from its first character that is not blank on. -/
def core (d : Draft) : Text := d.written.reverse.dropWhile Text.isBlank

theorem text_eq_core (d : Draft) : d.text = Text.dropTail Text.isBlank d.core := rfl

/-- The space that goes before a piece, if one does. -/
def glue (d : Draft) (piece : Text) : Text := if d.spaces piece then [' '] else []

theorem written_put (d : Draft) (piece : Text) :
    (d.put piece).written.reverse = d.written.reverse ++ d.glue piece ++ piece := by
  simp only [put, glue]
  split <;> simp

theorem glue_blank (d : Draft) (piece : Text) : ∀ c ∈ d.glue piece, Text.isBlank c = true := by
  intro c hc
  simp only [glue] at hc
  split at hc
  · rw [List.mem_singleton.mp hc]; decide
  · simp at hc

theorem text_put_blank (d : Draft) (piece : Text) (h : ∀ c ∈ piece, Text.isBlank c = true) :
    (d.put piece).text = d.text := by
  rw [text, written_put, List.append_assoc]
  apply Text.trim_append_blank
  intro c hc
  rcases List.mem_append.mp hc with hc | hc
  · exact glue_blank d piece c hc
  · exact h c hc

theorem core_put_of_core_nil (d : Draft) (piece : Text) (h : d.core = []) :
    (d.put piece).core = piece.dropWhile Text.isBlank := by
  have hb : ∀ c ∈ d.written.reverse ++ d.glue piece, Text.isBlank c = true := by
    intro c hc
    rcases List.mem_append.mp hc with hw | hg
    · exact List.dropWhile_eq_nil_iff.mp h c hw
    · exact glue_blank d piece c hg
  rw [core, written_put, List.dropWhile_append_of_pos hb]

theorem core_put_of_core_ne_nil (d : Draft) (piece : Text) (h : d.core ≠ []) :
    (d.put piece).core = d.core ++ d.glue piece ++ piece := by
  rw [core, written_put, List.append_assoc, List.dropWhile_append]
  have hd : d.written.reverse.dropWhile Text.isBlank ≠ [] := h
  simp [core, hd]

theorem written_head (d : Draft) (h : d.core ≠ []) : d.written.head? = d.core.getLast? := by
  have hs : d.core <:+ d.written.reverse := List.dropWhile_suffix _
  obtain ⟨front, hf⟩ := hs
  have hl : d.written.head? = d.written.reverse.getLast? := by simp
  rw [hl, ← hf, List.getLast?_append]
  cases hc : d.core.getLast? with
  | none => exact absurd (List.getLast?_eq_none_iff.mp hc) h
  | some c => rfl

theorem spaces_eq (d : Draft) (piece : Text) :
    d.spaces piece = (d.gap && d.written.head?.any fun a => piece.head?.any fun b =>
      !d.isTight a && !d.isTight b) := by
  cases hw : d.written <;> cases piece <;> simp [spaces, hw]

end Draft

/-- Whether two drafts read on alike. A gap matters only behind something. -/
structure Alike (d e : Draft) : Prop where
  core_eq : d.core = e.core
  depth_eq : d.depth = e.depth
  gap_eq : d.core ≠ [] → d.gap = e.gap

namespace Alike

theorem refl (d : Draft) : Alike d d := ⟨rfl, rfl, fun _ => rfl⟩

variable {d e : Draft}

theorem text_eq (h : Alike d e) : d.text = e.text := by
  rw [Draft.text_eq_core, Draft.text_eq_core, h.core_eq]

theorem isTight_eq (h : Alike d e) : d.isTight = e.isTight := by
  funext c
  rw [Draft.isTight, Draft.isTight, h.depth_eq]

theorem spaces_eq (h : Alike d e) (hc : d.core ≠ []) (piece : Text) :
    d.spaces piece = e.spaces piece := by
  have he : e.core ≠ [] := h.core_eq ▸ hc
  rw [Draft.spaces_eq, Draft.spaces_eq, h.gap_eq hc, h.isTight_eq, Draft.written_head d hc,
    Draft.written_head e he, h.core_eq]

theorem put (h : Alike d e) (piece : Text) : Alike (d.put piece) (e.put piece) := by
  refine ⟨?_, h.depth_eq, fun _ => rfl⟩
  by_cases hc : d.core = []
  · rw [Draft.core_put_of_core_nil d piece hc,
      Draft.core_put_of_core_nil e piece (h.core_eq ▸ hc)]
  · rw [Draft.core_put_of_core_ne_nil d piece hc,
      Draft.core_put_of_core_ne_nil e piece (h.core_eq ▸ hc), Draft.glue, Draft.glue,
      h.spaces_eq hc, h.core_eq]

theorem withGap (h : Alike d e) : Alike { d with gap := true } { e with gap := true } :=
  ⟨h.core_eq, h.depth_eq, fun _ => rfl⟩

theorem withDepth (h : Alike d e) (n : Nat) : Alike { d with depth := n } { e with depth := n } :=
  ⟨h.core_eq, rfl, h.gap_eq⟩

theorem declarations_eq (h : Alike d e) (l m : Int) :
    (d.declarations l).map Statement.unplaced = (e.declarations m).map Statement.unplaced := by
  simp only [Draft.declarations, Draft.declaration?, h.text_eq]
  split <;> simp [Statement.unplaced]

theorem bracketFaults_eq (h : Alike d e) (l m : Int) :
    (d.bracketFaults l).map Fault.cause = (e.bracketFaults m).map Fault.cause := by
  simp only [Draft.bracketFaults, h.depth_eq]
  split <;> rfl

theorem mark_draft (h : Alike d e) (l m : Int) (c : Char) :
    Alike (d.mark l c).draft (e.mark m c).draft := by
  simp only [Draft.mark, ← h.depth_eq]
  split_ifs
  · exact (h.put [c]).withDepth _
  · exact (h.withDepth _).put [c]
  · exact refl _
  · exact refl _
  · exact refl _
  · exact h.put [c]

theorem mark_gist (h : Alike d e) (l m : Int) (c : Char) :
    (d.mark l c).gist = (e.mark m c).gist := by
  simp only [Draft.mark, ← h.depth_eq]
  split_ifs <;>
    simp [Outcome.gist, h.declarations_eq l m, h.bracketFaults_eq l m, h.text_eq,
      Statement.unplaced]

theorem step_draft (h : Alike d e) (l m : Int) (x : Lexeme) :
    Alike (d.step l x).draft (e.step m x).draft := by
  cases x with
  | blank c => exact h.withGap
  | blockComment body closed => exact h.withGap
  | lineComment body => exact h.withGap
  | quotation quote body ending => exact h.put _
  | mark c => exact h.mark_draft l m c

theorem step_gist (h : Alike d e) (l m : Int) (x : Lexeme) :
    (d.step l x).gist = (e.step m x).gist := by
  cases x with
  | blank c => rfl
  | blockComment body closed => cases closed <;> rfl
  | lineComment body => rfl
  | quotation quote body ending => cases ending <;> rfl
  | mark c => exact h.mark_gist l m c

theorem stop_gist (h : Alike d e) (l m : Int) : (d.stop l).gist = (e.stop m).gist := by
  have hd : ((d.declaration? l).toList.map fun _ => (⟨.declarationOpen, some l⟩ : Fault)).map
      Fault.cause = ((e.declaration? m).toList.map fun _ => ⟨.declarationOpen, some m⟩).map
      Fault.cause := by
    simp only [Draft.declaration?, h.text_eq]
    split <;> rfl
  simp only [Draft.stop, Outcome.gist, List.map_append, h.declarations_eq l m,
    h.bracketFaults_eq l m, hd]

theorem read_gist (h : Alike d e) (l m : Int) (xs : List Lexeme) :
    (read l d xs).gist = (read m e xs).gist := by
  induction xs generalizing d e l m with
  | nil => exact h.stop_gist l m
  | cons x xs ih =>
    rw [read, read, gist_prepend, gist_prepend, h.step_gist l m, ih (h.step_draft l m x)]

end Alike

theorem gist_of_alike {d e : Draft} (h : Alike d e) (t : Text) : gist d t = gist e t := by
  rw [gist, gist, readText, readText, h.depth_eq]
  exact h.read_gist 1 1 _

theorem readText_gist (line : Int) (d : Draft) (t : Text) : (readText line d t).gist = gist d t :=
  (Alike.refl d).read_gist line 1 _

theorem gist_nil (d : Draft) : gist d [] = (d.stop 1).gist := by
  rw [gist, readText_nil]; rfl

theorem gist_next (d : Draft) (t r : Text) (x : Lexeme) (h : next? d.depth t = some (x, r)) :
    gist d t = (d.step 1 x).gist.append (gist (d.step 1 x).draft r) := by
  rw [gist, readText_next 1 d t r x h, gist_prepend, readText_gist]

/-- A lexeme that ends no statement and shows no fault only changes the draft. -/
theorem gist_next_silent (d : Draft) (t r : Text) (x : Lexeme)
    (h : next? d.depth t = some (x, r)) (hs : (d.step 1 x).gist = ⟨[], []⟩) :
    gist d t = gist (d.step 1 x).draft r := by
  rw [gist_next d t r x h, hs, append_empty_gist]

theorem gist_source (source : Text) :
    (readSource source).gist = gist Draft.empty (Text.unifyBreaks source) := rfl

end NestedCss.Scan
