import NestedCss.Proofs.Breaks
import NestedCss.Proofs.FairCopies
import NestedCss.Proofs.Placeless

/-!
# Flat sheets

Rules that are laid out are read back: each rule as a block of its declarations, and each group with
a header as a block of its rules. The indent and the line breaks leave no trace, as long as they
are blank. All that is asked of the texts is that they are fair copies.
-/

set_option autoImplicit false

namespace NestedCss.Scan

/-- Whether a text is taken from a source as it stands: a fair copy in one form of line breaks, with
no blank at either end. -/
structure Copied (t : Text) : Prop where
  fair : Fair t
  trimmed : Text.trim t = t
  plain : ∀ c ∈ t, Text.Plain c

/-- Reads as the statements, in any form of line breaks and whatever comes behind. -/
def Spells (t : Text) (ss : List Statement) : Prop :=
  ∀ r, Mode.run (.outside Draft.empty) (Text.unifyBreaks (t ++ r)) =
    ss ++ Mode.run (.outside Draft.empty) (Text.unifyBreaks r)

theorem spells_nil : Spells [] [] := fun _ => rfl

theorem spells_append (s t : Text) (ss ts : List Statement) (hs : Spells s ss)
    (ht : Spells t ts) : Spells (s ++ t) (ss ++ ts) := by
  intro r
  rw [List.append_assoc, hs, ht, List.append_assoc]

/-- A plain text that ends in a solid character is read the same in front of anything. -/
theorem spells_concat (u : Text) (c : Char) (ss : List Statement) (h : Reads (u ++ [c]) ss)
    (hp : ∀ a ∈ u, Text.Plain a) (hc : Text.isBlank c = false) : Spells (u ++ [c]) ss := by
  intro r
  have hu : Text.unifyBreaks (u ++ [c] ++ r) = u ++ [c] ++ Text.unifyBreaks r := by
    rw [List.append_assoc, List.singleton_append, Text.unifyBreaks_append u r c hc,
      Text.unifyBreaks_plain u hp]
    simp
  rw [hu, h]

theorem spells_blanks (b : Text) (hb : ∀ c ∈ b, Text.isBlank c = true) : Spells b [] := by
  intro r
  obtain ⟨d, hd, hbd⟩ := Text.unifyBreaks_blanks b r hb
  rw [hd, reads_blanks d hbd]

theorem spells_join {α : Type} (separator : Text) (f : α → Text) (g : α → List Statement)
    (l : List α) (hb : ∀ c ∈ separator, Text.isBlank c = true) (h : ∀ a ∈ l, Spells (f a) (g a)) :
    Spells (Text.join separator (l.map f)) (l.flatMap g) := by
  induction l with
  | nil => exact spells_nil
  | cons a l ih =>
    have ha := h a (by simp)
    have hl := ih fun b hb => h b (by simp [hb])
    cases l with
    | nil => simpa [Text.join] using ha
    | cons b l =>
      rw [List.map_cons, List.map_cons, Text.join_cons_cons, ← List.map_cons, List.flatMap_cons]
      exact spells_append _ _ _ _ ha (spells_append _ _ [] _ (spells_blanks separator hb) hl)

theorem spells_opening (t : Text) (h : Copied t) : Spells (t ++ ['{']) [.opening t 0] :=
  spells_concat t '{' _ (reads_opening t h.fair h.trimmed) h.plain (by decide)

theorem spells_closing : Spells ['}'] [.closing 0] :=
  spells_concat [] '}' _ reads_closing (by simp) (by decide)

theorem spells_declaration (t : Text) (h : Copied t) (hn : t ≠ []) :
    Spells (t ++ [';']) [.declaration ⟨t ++ [';'], 0⟩] :=
  spells_concat t ';' _ (reads_declaration t h.fair h.trimmed hn) h.plain (by decide)

/-- A source is read as it spells. -/
theorem statements_of_spells (source : Text) (ss : List Statement) (h : Spells source ss) :
    (readSource source).statements.map Statement.unplaced = ss := by
  have hr : Mode.run (.outside Draft.empty) (Text.unifyBreaks source) =
      (readSource source).statements.map Statement.unplaced :=
    Mode.run_eq_gist 0 Draft.empty _ rfl
  have hs := h []
  rw [List.append_nil] at hs
  rw [← hr, hs]
  exact List.append_nil _

end NestedCss.Scan

namespace NestedCss.Sheet

open Scan

/-- The statements of a rule that stands by itself. -/
def ruleStatements (r : Rule) : List Statement :=
  .opening r.selector 0 :: r.lines.map (fun d => .declaration d.unplaced) ++ [.closing 0]

def blockStatements (group : Text) (rules : List Rule) : List Statement :=
  if group = [] then rules.flatMap ruleStatements
  else .opening group 0 :: rules.flatMap ruleStatements ++ [.closing 0]

/-- The statements of a sheet of rules. -/
def statements (rules : List Rule) : List Statement :=
  (groups rules).flatMap fun g => blockStatements g (members rules g)

/-- The statement with its prelude read in some way. -/
def respell (heading : Text → Text) : Statement → Statement
  | .opening t line => .opening (heading t) line
  | s => s

theorem respell_declarations (heading : Text → Text) (r : Rule) :
    (ruleStatements r).map (respell heading) = .opening (heading r.selector) 0 ::
      r.lines.map (fun d => .declaration d.unplaced) ++ [.closing 0] := by
  simp [ruleStatements, respell]

/-- Whether a heading opens a block under the text that it is read as. -/
def Heads (heading : Text → Text) (t : Text) : Prop :=
  Spells (t ++ ['{']) [.opening (heading t) 0]

/-- Whether a rule is read as its declarations in one block. -/
structure ReadRule (heading : Text → Text) (r : Rule) : Prop where
  group : r.group ≠ [] → Heads heading r.group
  selector : Heads heading r.selector
  lines : ∀ d ∈ r.lines, ∃ t, d.text = t ++ [';'] ∧ Copied t ∧ t ≠ []

section
variable {heading : Text → Text}

theorem spells_rule (r : Rule) (h : ReadRule heading r) :
    Spells r.rendered ((ruleStatements r).map (respell heading)) := by
  have hl : Spells (Text.join [' '] (r.lines.map Declaration.text))
      (r.lines.flatMap fun d => [.declaration d.unplaced]) := by
    refine spells_join [' '] _ _ r.lines (by simp; decide) fun d hd => ?_
    obtain ⟨t, ht, hc, hn⟩ := h.lines d hd
    rw [Declaration.unplaced, ht]
    exact spells_declaration t hc hn
  have hr := spells_append _ _ _ _ h.selector (spells_append _ _ _ _ hl spells_closing)
  have ht : r.rendered = (r.selector ++ ['{']) ++
      (Text.join [' '] (r.lines.map Declaration.text) ++ ['}']) := by
    simp [Rule.rendered]
  have hs : (ruleStatements r).map (respell heading) = [Statement.opening (heading r.selector) 0] ++
      ((r.lines.flatMap fun d => [.declaration d.unplaced]) ++ [.closing 0]) := by
    rw [respell_declarations]
    simp [List.map_eq_flatMap]
  rw [ht, hs]
  exact hr

theorem spells_block (indent group : Text) (rules : List Rule)
    (hi : ∀ c ∈ indent, Text.isBlank c = true) (hg : group ≠ [] → Heads heading group)
    (h : ∀ r ∈ rules, ReadRule heading r) :
    Spells (block indent group rules) ((blockStatements group rules).map (respell heading)) := by
  have hb : ∀ c ∈ ['\n'], Text.isBlank c = true := by simp; decide
  rw [block, blockStatements]
  split
  · rw [List.map_flatMap]
    exact spells_join ['\n'] _ _ rules hb fun r hr => spells_rule r (h r hr)
  · next hn =>
    have hm : Spells (indented indent rules)
        ((rules.flatMap ruleStatements).map (respell heading)) := by
      rw [List.map_flatMap]
      exact spells_join ['\n'] _ _ rules hb fun r hr =>
        spells_append indent _ [] _ (spells_blanks indent hi) (spells_rule r (h r hr))
    have hr := spells_append _ _ _ _ (hg hn) (spells_append _ _ [] _
      (spells_blanks ['\n'] hb) (spells_append _ _ _ _ hm
        (spells_append _ _ [] _ (spells_blanks ['\n'] hb) spells_closing)))
    simpa [respell] using hr

/-- A sheet is read as its statements, with each heading read as it is. -/
theorem spells_sheet (indent : Text) (rules : List Rule)
    (hi : ∀ c ∈ indent, Text.isBlank c = true) (h : ∀ r ∈ rules, ReadRule heading r) :
    Spells (rendered indent rules) ((statements rules).map (respell heading)) := by
  rw [statements, List.map_flatMap]
  refine spells_join ['\n'] _ _ (groups rules) (by simp; decide) fun g hg => ?_
  have hm : ∀ r ∈ members rules g, ReadRule heading r := fun r hr => h r (List.mem_of_mem_filter hr)
  obtain ⟨r, hr, rfl⟩ := List.mem_map.mp (List.mem_eraseDups.mp hg)
  exact spells_block indent r.group _ hi (h r hr).group hm

end

end NestedCss.Sheet
