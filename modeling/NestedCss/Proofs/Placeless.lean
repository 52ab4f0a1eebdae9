import NestedCss.Compile
import NestedCss.Proofs.Headers

/-!
# Flat css without lines

The lines of the declarations take no part in unnesting. Two runs over statements that differ in
their lines alone keep the same stack and the same keys, and their books differ in the lines alone;
renaming and laying out look at the texts.
-/

set_option autoImplicit false

namespace NestedCss

namespace Declaration

def unplaced (d : Declaration) : Declaration := ⟨d.text, 0⟩

end Declaration

namespace Rule

def unplaced (r : Rule) : Rule := ⟨r.group, r.selector, r.lines.map Declaration.unplaced⟩

theorem rendered_unplaced (r : Rule) : r.unplaced.rendered = r.rendered := by
  simp [rendered, unplaced, Declaration.unplaced, Function.comp_def]

end Rule

namespace Book

def unplaced (b : Book) : Book := b.map fun (k, r) => (k, r.unplaced)

theorem keys_unplaced (b : Book) : b.unplaced.keys = b.keys := by
  simp [keys, unplaced, Function.comp_def]

theorem unplaced_reach (b : Book) (k : Key) : (b.reach k).unplaced = b.unplaced.reach k := by
  rw [reach, reach, keys_unplaced]
  split
  · rfl
  · simp [unplaced, Rule.unplaced, Rule.ofKey]

theorem unplaced_file (b : Book) (k : Key) (d : Declaration) :
    (b.file k d).unplaced = b.unplaced.file k d.unplaced := by
  simp only [file, unplaced, List.map_map]
  apply List.map_congr_left
  rintro ⟨l, r⟩ -
  by_cases h : l = k <;> simp [h, Rule.unplaced, Rule.add]

theorem filledEntries_unplaced (b : Book) :
    b.unplaced.filledEntries = b.filledEntries.map fun e => (e.1, e.2.unplaced) := by
  rw [filledEntries, unplaced, List.filter_map]
  congr 1
  refine List.filter_congr fun e _ => ?_
  simp [Rule.unplaced]

theorem filled_unplaced (b : Book) : b.unplaced.filled = b.filled.map Rule.unplaced := by
  rw [← rules_filledEntries, filledEntries_unplaced, ← rules_filledEntries, rules, rules,
    List.map_map, List.map_map]
  rfl

end Book

namespace Animation

theorem renameLine_unplaced (ns : List Text) (f : Text → Text) (d : Declaration) :
    renameLine ns f d.unplaced = (renameLine ns f d).unplaced := by
  have hn : d.unplaced.name = d.name := rfl
  rw [renameLine, renameLine, hn]
  split
  · rfl
  · rfl

theorem renameRule_unplaced (ns : List Text) (f : Text → Text) (r : Rule) :
    renameRule ns f r.unplaced = (renameRule ns f r).unplaced := by
  simp only [renameRule, Rule.unplaced, List.map_map, Rule.mk.injEq, true_and]
  exact List.map_congr_left fun d _ => renameLine_unplaced ns f d

theorem names_unplaced (b : Book) : names b.unplaced.filled = names b.filled := by
  rw [Book.filled_unplaced, names, names, List.filterMap_map]
  rfl

theorem rename_unplaced (f : Text → Text) (b : Book) :
    rename f b.unplaced = (rename f b).unplaced := by
  rw [rename, rename, names_unplaced]
  split
  · rfl
  · next ns =>
    simp only [Book.mapFilled, Book.unplaced, List.map_map]
    apply List.map_congr_left
    rintro ⟨k, r⟩ -
    have he : r.unplaced.lines.isEmpty = r.lines.isEmpty := by simp [Rule.unplaced]
    simp only [Function.comp_apply, he, renameRule_unplaced]
    split <;> rfl

end Animation

namespace Sheet

theorem rendered_unplaced (indent : Text) (rules : List Rule) :
    rendered indent (rules.map Rule.unplaced) = rendered indent rules := by
  have hg : groups (rules.map Rule.unplaced) = groups rules := by
    simp [groups, Rule.unplaced, Function.comp_def]
  have hm : ∀ g, members (rules.map Rule.unplaced) g = (members rules g).map Rule.unplaced := by
    intro g
    rw [members, members, List.filter_map]
    rfl
  have hb : ∀ g, block indent g (members (rules.map Rule.unplaced) g) =
      block indent g (members rules g) := by
    intro g
    simp only [hm, block, lines, indented, List.map_map, Function.comp_def, Rule.rendered_unplaced]
  rw [rendered, rendered, hg]
  simp only [hb]

end Sheet

namespace Unnesting

/-- Whether two runs differ in the lines of their declarations alone. -/
structure Agrees (u v : Unnesting) : Prop where
  scope_eq : u.scope = v.scope
  settings_eq : u.settings = v.settings
  stack_eq : u.stack = v.stack
  current_eq : u.current = v.current
  book_eq : u.book.unplaced = v.book.unplaced

variable {u v : Unnesting}

theorem agrees_settle (h : Agrees u v) (stack : List Text) :
    Agrees (u.settle stack) (v.settle stack) := by
  refine ⟨h.scope_eq, h.settings_eq, rfl, rfl, ?_⟩
  show (u.book.reach _).unplaced = (v.book.reach _).unplaced
  rw [Book.unplaced_reach, Book.unplaced_reach, h.book_eq]

theorem agrees_enter (h : Agrees u v) (t : Text) : Agrees (u.enter t) (v.enter t) := by
  have ha : u.anchored t = v.anchored t := by
    rw [anchored, anchored, h.stack_eq, h.scope_eq]
  rw [enter, enter, ha, h.stack_eq]
  exact agrees_settle h _

theorem agrees_leave (h : Agrees u v) (l m : Option Int) : Agrees (u.leave l) (v.leave m) := by
  rw [leave, leave, h.stack_eq]
  split
  · exact ⟨h.scope_eq, h.settings_eq, rfl, h.current_eq, h.book_eq⟩
  · exact agrees_settle h _

theorem agrees_file (h : Agrees u v) (c d : Declaration) (hd : c.unplaced = d.unplaced) :
    Agrees (u.file c) (v.file d) := by
  rw [file, file, h.current_eq]
  split
  · refine ⟨h.scope_eq, h.settings_eq, h.stack_eq, rfl, ?_⟩
    show (u.book.file _ c).unplaced = (v.book.file _ d).unplaced
    rw [Book.unplaced_file, Book.unplaced_file, h.book_eq, hd]
  · exact h

theorem agrees_take (h : Agrees u v) (s t : Statement) (hs : s.unplaced = t.unplaced) :
    Agrees (u.take s) (v.take t) := by
  cases s <;> cases t <;> simp only [Statement.unplaced, reduceCtorEq, Statement.opening.injEq,
    Statement.declaration.injEq, Declaration.mk.injEq, and_true] at hs
  · subst hs
    exact agrees_enter h _
  · exact agrees_leave h _ _
  · exact agrees_file h _ _ (by rw [Declaration.unplaced, Declaration.unplaced, hs])
  · exact h
  · exact h

theorem agrees_takeAll (h : Agrees u v) (ss ts : List Statement)
    (hs : ss.map Statement.unplaced = ts.map Statement.unplaced) :
    Agrees (u.takeAll ss) (v.takeAll ts) := by
  induction ss generalizing u v ts with
  | nil =>
    obtain rfl := List.map_eq_nil_iff.mp hs.symm
    exact h
  | cons s ss ih =>
    cases ts with
    | nil => simp at hs
    | cons t ts =>
      obtain ⟨hst, hss⟩ := List.cons.inj hs
      exact ih (agrees_take h s t hst) ts hss

theorem agrees_renamed (h : Agrees u v) : Agrees u.renamed v.renamed := by
  have hn : u.namespaced = v.namespaced := by
    funext name
    rw [namespaced, namespaced, h.scope_eq, h.settings_eq]
  rw [renamed, renamed, h.settings_eq]
  split
  · refine ⟨h.scope_eq, rfl, h.stack_eq, h.current_eq, ?_⟩
    show (Animation.rename u.namespaced u.book).unplaced = (Animation.rename _ v.book).unplaced
    rw [← Animation.rename_unplaced, ← Animation.rename_unplaced, h.book_eq, hn]
  · exact h

theorem css_eq (h : Agrees u v) : u.css = v.css := by
  rw [css, css, ← Sheet.rendered_unplaced, ← Book.filled_unplaced, h.book_eq, h.settings_eq,
    Book.filled_unplaced, Sheet.rendered_unplaced]

end Unnesting

/-- Sources of the same statements come to the same css. -/
theorem unnest_text_congr (s t scope : Text) (settings : Settings)
    (h : (Scan.readSource s).statements.map Statement.unplaced =
      (Scan.readSource t).statements.map Statement.unplaced) :
    (unnest s scope settings).text = (unnest t scope settings).text := by
  have hr : Unnesting.Agrees (Unnesting.start s scope settings).restart
      (Unnesting.start t scope settings).restart := ⟨rfl, rfl, rfl, rfl, rfl⟩
  obtain ⟨h₁, h₂, h₃, h₄, h₅⟩ := Unnesting.agrees_takeAll hr _ _ h
  have hg : Unnesting.Agrees (Unnesting.start s scope settings).gather
      (Unnesting.start t scope settings).gather := ⟨h₁, h₂, h₃, h₄, h₅⟩
  exact Unnesting.css_eq (Unnesting.agrees_renamed hg)

end NestedCss
