import NestedCss.Proofs.Drafts
import NestedCss.Proofs.Grammar
import NestedCss.Proofs.Watching
import NestedCss.Unnesting

/-!
# Faultless sources

Faults are found at two places: reading reports strings, comments, brackets and a last declaration
that are not closed, and unnesting reports braces that do not match. Together they report nothing
for exactly the sources that the grammar derives.
-/

set_option autoImplicit false

namespace NestedCss

namespace Grammar

open Scan

/-! ## Braces -/

/-- Whether the statements close so many open blocks and all that they open. -/
def balanced : Nat → List Statement → Bool
  | blocks, [] => blocks == 0
  | blocks, .opening _ _ :: ts => balanced (blocks + 1) ts
  | blocks, .closing _ :: ts => blocks != 0 && balanced (blocks - 1) ts
  | blocks, _ :: ts => balanced blocks ts

theorem balanced_declarations (blocks : Nat) (d : Draft) (line : Int) (ts : List Statement) :
    balanced blocks (d.declarations line ++ ts) = balanced blocks ts := by
  simp only [Draft.declarations, Draft.declaration?]
  split <;> rfl

theorem faults_file (u : Unnesting) (d : Declaration) : (u.file d).faults = u.faults := by
  unfold Unnesting.file
  split <;> rfl

theorem faults_takeAll_ne_nil (u : Unnesting) (ts : List Statement) (h : u.faults ≠ []) :
    (u.takeAll ts).faults ≠ [] := by
  induction ts generalizing u with
  | nil => exact h
  | cons t ts ih =>
    refine ih (u.take t) ?_
    cases t with
    | opening text line => exact h
    | closing line =>
      rw [Unnesting.take, Unnesting.leave]
      split
      · simp
      · exact h
    | declaration d => rwa [Unnesting.take, faults_file]
    | ending text line => exact h
    | bare text line => exact h

/-- Statements taken above the scope show no fault, not even at the end, when they are balanced. -/
theorem faults_takeAll (u : Unnesting) (blocks : Nat) (line : Int) (ts : List Statement)
    (hu : u.faults = []) (hs : u.stack.length = blocks + 1) :
    (u.takeAll ts).faults ++ (u.takeAll ts).openFaults line = [] ↔ balanced blocks ts = true := by
  induction ts generalizing u blocks with
  | nil => simp [Unnesting.takeAll, Unnesting.openFaults, hu, hs, balanced, Nat.pos_iff_ne_zero]
  | cons t ts ih =>
    rw [show u.takeAll (t :: ts) = (u.take t).takeAll ts from rfl]
    cases t with
    | opening text _ =>
      exact ih (u.enter text) (blocks + 1) hu (by simp [Unnesting.enter, Unnesting.settle, hs])
    | closing l =>
      cases blocks with
      | zero =>
        have hf : (u.take (.closing l)).faults ≠ [] := by
          simp [Unnesting.take, Unnesting.leave, hs]
        simpa [balanced] using fun h => absurd h (faults_takeAll_ne_nil _ ts hf)
      | succ blocks =>
        have hl : u.take (.closing l) = u.settle u.stack.dropLast := by
          simp [Unnesting.take, Unnesting.leave, hs]
        rw [hl, ih (u.settle u.stack.dropLast) blocks hu (by simp [Unnesting.settle, hs])]
        simp [balanced]
    | declaration d =>
      exact ih (u.file d) blocks (by rwa [faults_file]) (by rwa [Unnesting.stack_file])
    | ending _ _ => exact ih u blocks hu hs
    | bare _ _ => exact ih u blocks hu hs

/-! ## Reading -/

theorem text_put_eq_nil (d : Draft) (piece : Text) :
    (d.put piece).text = [] ↔ d.text = [] ∧ piece.any (!Text.isBlank ·) = false := by
  have hg : (d.glue piece).any (!Text.isBlank ·) = false := by
    simpa using Draft.glue_blank d piece
  simp [Draft.text, Path.Watch.trim_eq_nil_iff, Draft.written_put, hg]

theorem text_put_bne_nil (d : Draft) (piece : Text) :
    ((d.put piece).text != []) = (d.text != [] || piece.any (!Text.isBlank ·)) := by
  rw [Bool.eq_iff_iff]
  simp [text_put_eq_nil, Classical.or_iff_not_imp_left]

theorem bracketFaults_eq_nil (d : Draft) (line : Int) :
    d.bracketFaults line = [] ↔ d.depth = 0 := by
  simp only [Draft.bracketFaults]
  split <;> simp <;> omega

/-- Whether a reading shows no fault and closes so many open blocks. -/
def Clean (blocks : Nat) (r : Reading) : Prop :=
  r.faults = [] ∧ balanced blocks r.statements = true

theorem clean_faults (blocks : Nat) (r : Reading) (ts : List Statement) (fs : List Fault) :
    Clean blocks (r.prepend ts fs) ↔ fs = [] ∧ Clean blocks (r.prepend ts []) := by
  simp [Clean, Reading.prepend, and_assoc]

theorem clean_declarations (blocks : Nat) (r : Reading) (d : Draft) (line : Int)
    (ts : List Statement) :
    Clean blocks (r.prepend (d.declarations line ++ ts) []) ↔ Clean blocks (r.prepend ts []) := by
  simp [Clean, Reading.prepend, balanced_declarations]

theorem clean_closing (blocks : Nat) (r : Reading) (line : Int) :
    Clean blocks (r.prepend [.closing line] []) ↔ blocks ≠ 0 ∧ Clean (blocks - 1) r := by
  simp only [Clean, Reading.prepend, List.nil_append, List.cons_append, balanced,
    Bool.and_eq_true, bne_iff_ne]
  exact and_left_comm

/-- What a mark makes of a draft is what it makes of the counters of the recogniser. -/
theorem clean_mark (blocks : Nat) (line l : Int) (d : Draft) (c : Char) (xs : List Lexeme)
    (ih : ∀ (blocks : Nat) (d : Draft), Clean blocks (Scan.read l d xs) ↔
      closes blocks d.depth (d.text != []) xs = true) :
    Clean blocks ((Scan.read l (d.mark line c).draft xs).prepend (d.mark line c).statements
      (d.mark line c).faults) ↔ closes blocks d.depth (d.text != []) (.mark c :: xs) = true := by
  have begun (e : Draft) (n : Nat) (hc : Text.isBlank c = false) :
      (Draft.text ⟨(e.put [c]).written, false, n⟩ != []) = true := by
    refine (text_put_bne_nil e [c]).trans ?_
    simp [hc]
  fun_cases Draft.mark d line c with
  | case1 hc =>
    have hc' : c ∈ Mark.openers := List.contains_iff_mem.mp hc
    refine (ih blocks ⟨(d.put [c]).written, false, d.depth + 1⟩).trans ?_
    rw [closes_opener _ _ _ _ _ hc', begun d _ (Mark.openers_solid c hc')]
  | case2 ho hc =>
    have hc' : c ∈ Mark.closers := List.contains_iff_mem.mp hc
    have hb := begun { d with depth := d.depth - 1 } (d.depth - 1) (Mark.closers_solid c hc')
    refine (ih blocks ({ d with depth := d.depth - 1 }.put [c])).trans ?_
    rw [closes_closer _ _ _ _ _ hc', ← hb]
    rfl
  | case3 ho hc hb =>
    obtain rfl := beq_iff_eq.mp hb
    rw [clean_faults, bracketFaults_eq_nil, closes_opening, Bool.and_eq_true, beq_iff_eq]
    exact and_congr_right' (ih (blocks + 1) Draft.empty)
  | case4 ho hc hb he =>
    obtain rfl := beq_iff_eq.mp he
    rw [clean_faults, bracketFaults_eq_nil, clean_declarations, clean_closing,
      ih (blocks - 1) Draft.empty, closes_closing, Bool.and_eq_true, Bool.and_eq_true, beq_iff_eq,
      bne_iff_ne, and_assoc]
    rfl
  | case5 ho hc hb he hs =>
    obtain ⟨hc, hd⟩ := Bool.and_eq_true_iff.mp hs
    obtain rfl := beq_iff_eq.mp hc
    rw [← List.append_nil (d.declarations line), clean_declarations, beq_iff_eq.mp hd,
      closes_semicolon]
    exact ih blocks Draft.empty
  | case6 ho hc hb he hs =>
    refine (ih blocks (d.put [c])).trans ?_
    have hx : Lexeme.fits (d.depth != 0) (.mark c) = true := by
      by_cases hd : d.depth = 0 <;> simp_all [Lexeme.fits]
    rw [closes_lexeme _ _ _ _ _ hx, text_put_bne_nil]
    simp [Lexeme.isSolid, Draft.put]

theorem stringFaults_eq_nil (line : Int) (ending : StringEnd) :
    Draft.stringFaults line ending = [] ↔ ending = .closed := by
  cases ending <;> simp [Draft.stringFaults]

theorem clean_read (blocks : Nat) (line : Int) (d : Draft) (xs : List Lexeme) :
    Clean blocks (Scan.read line d xs) ↔ closes blocks d.depth (d.text != []) xs = true := by
  induction xs generalizing blocks line d with
  | nil =>
    have hb := balanced_declarations blocks d line []
    by_cases ht : d.text = [] <;>
      simp_all [Clean, Scan.read, Draft.stop, closes, Draft.declaration?, bracketFaults_eq_nil,
        balanced, and_comm]
  | cons x xs ih =>
    rw [Scan.read]
    cases x with
    | mark c => exact clean_mark blocks line _ d c xs fun b e => ih b _ e
    | quotation q body ending =>
      have hp := ih blocks (line + (Lexeme.quotation q body ending).breaks)
        (d.put (Draft.stringText q body ending))
      refine (clean_faults _ _ _ _).trans
        ((and_congr (stringFaults_eq_nil line ending) hp).trans ?_)
      cases ending with
      | closed =>
        rw [closes_lexeme _ _ _ _ _ rfl, text_put_bne_nil]
        simp [Lexeme.isSolid, Draft.stringText, Draft.put, Bool.or_comm, Bool.or_left_comm]
      | broken => simp [closes, Lexeme.fits]
      | cut => simp [closes, Lexeme.fits]
    | blockComment body closed =>
      have hg := ih blocks (line + (Lexeme.blockComment body closed).breaks)
        ⟨d.written, true, d.depth⟩
      refine (clean_faults _ _ _ _).trans ((and_congr_right' hg).trans ?_)
      cases closed <;> simp [closes, Lexeme.fits, Lexeme.isSolid, Draft.text, Draft.step]
    | blank c =>
      have hg := ih blocks (line + (Lexeme.blank c).breaks) ⟨d.written, true, d.depth⟩
      exact hg.trans (by simp [closes, Lexeme.fits, Lexeme.isSolid, Draft.text])
    | lineComment body =>
      have hg := ih blocks (line + (Lexeme.lineComment body).breaks) ⟨d.written, true, d.depth⟩
      exact hg.trans (by simp [closes, Lexeme.fits, Lexeme.isSolid, Draft.text])

/-- Unnesting reports no fault for exactly the sheets of the grammar. -/
theorem run_faultless_iff_sheet (source scope : Text) (settings : Settings) :
    (Unnesting.start source scope settings).run.faults = [] ↔
      Sheet (lexemes 0 (Text.unifyBreaks source)) := by
  have hr : ∀ u : Unnesting, u.renamed.faults = u.faults := fun u => by
    unfold Unnesting.renamed
    split <;> rfl
  have hu := faults_takeAll ((Unnesting.start source scope settings).restart) 0
    (readSource source).line (readSource source).statements rfl rfl
  have hc := clean_read 0 1 Draft.empty (lexemes 0 (Text.unifyBreaks source))
  rw [← closes_iff_sheet, Unnesting.run, hr]
  refine Iff.trans ?_ hc
  rw [Clean, ← readSource, ← hu, ← List.append_eq_nil_iff, ← List.append_assoc]
  rfl

end Grammar

end NestedCss
