import NestedCss.Proofs.BareHeadings
import NestedCss.Proofs.Insertions
import NestedCss.Proofs.Namespaces
import NestedCss.Proofs.Stability

/-!
# Reading css back

Flat css is read as the sheet it was laid out from: block by block a group is opened, within it each
rule with exactly its declarations, and each is closed again. The selectors and conditions may have
come out with brackets unbalanced, since a brace ends them all the same. A declaration is read as
it stands, labelled names and all, unless a name of backslashes alone stands in a string.
-/

set_option autoImplicit false

namespace NestedCss.ReadBack
open Scan Filing Containment Animation Sheet Stability

variable {scope source : Text}

/-- The preludes among some statements. -/
def preludes (ts : List Statement) : List Text :=
  ts.filterMap fun s => match s with
    | .opening t _ => some t
    | _ => none

theorem mem_preludes (ts : List Statement) (t : Text) (line : Int) (h : .opening t line ∈ ts) :
    t ∈ preludes ts :=
  List.mem_filterMap.mpr ⟨_, h, rfl⟩

/-- Whether the preludes of some statements hold no quote, no slash and no semicolon. -/
def Unquoted (ts : List Statement) : Prop :=
  ∀ t ∈ preludes ts, ∀ c ∈ t, c ∉ Mark.quotes ∧ c ≠ '/' ∧ c ≠ ';'

instance (ts : List Statement) : Decidable (Unquoted ts) :=
  inferInstanceAs (Decidable (∀ t ∈ preludes ts, _))

theorem bare_prelude (hf : (readSource source).faults = [])
    (hq : Unquoted (readSource source).statements) (t : Text) (line : Int)
    (ht : .opening t line ∈ (readSource source).statements) : t.Bare := by
  have hc := hq t (mem_preludes _ t line ht)
  obtain ⟨ho, hcl⟩ := neat_braces Pen.start t (copied_prelude source t line hf ht).fair.neat rfl
    fun c hm => (hc c hm).1
  intro c hm hb
  obtain ⟨hqc, hs, hz⟩ := hc c hm
  simp only [Mark.bars, List.mem_append, hqc, List.mem_cons, List.not_mem_nil, or_false,
    false_or] at hb
  rcases hb with rfl | rfl | rfl | rfl
  · exact hs rfl
  · exact hz rfl
  · exact ho hm
  · exact hcl hm

/-- What is filed under bare preludes is read as a rule. -/
theorem readRule_ledger (h : IsClass scope) (hf : (readSource source).faults = [])
    (hq : Unquoted (readSource source).statements) (r : Rule)
    (hr : r ∈ (ledger scope (readSource source).statements).filled) :
    r.group.Bare ∧ r.selector.Bare ∧
      ∀ d ∈ r.lines, ∃ t, d.text = t ++ [';'] ∧ Copied t ∧ t ≠ [] := by
  obtain ⟨p, hp, hk⟩ := mem_filled_ledger scope _ r hr
  have hb := bare_path h p.2 fun t ht => by
    obtain ⟨line, hl⟩ := mem_path _ p t hp ht
    exact bare_prelude hf hq t line hl
  rw [hk] at hb
  exact ⟨hb.1, hb.2, fun d hd => copied_declaration source d hf
    (mem_lines_ledger scope _ r d (List.mem_of_mem_filter hr) hd)⟩

theorem settles_name (rules : List Rule) (hb : ∀ r ∈ rules, r.group.Bare) (n : Text)
    (hn : n ∈ names rules) (hs : ∃ c ∈ n, c ≠ '\\') : n.Settles := by
  obtain ⟨r, hr, hk⟩ := (mem_names rules n).mp hn
  obtain ⟨hd, ht, rfl⟩ := Option.map_eq_some_iff.mp hk
  obtain ⟨keyword, blanks, hsound⟩ := Prelude.Header.sound_of? r.group hd ht
  have htext := Prelude.Header.text_of? r.group hd ht
  refine ⟨hs, fun c hc => ⟨fun hq => ?_, ?_⟩⟩
  · refine hb r hr c ?_ (List.mem_append_left _ hq)
    rw [← htext, Prelude.Header.text, Prelude.Header.named]
    simp [hc]
  · have he := hsound.name_goes_on c hc
    rw [Prelude.endsName, Bool.or_eq_false_iff] at he
    exact he.1

theorem bare_renameGroup (w group : Text) (hw : w.Bare) (hg : group.Bare) :
    (renameGroup (w ++ ·) group).Bare := by
  rw [renameGroup]
  split
  · next hd ht =>
    have hs := Prelude.Header.text_of? group hd ht
    rw [← hs] at hg
    intro c hc
    simp only [Prelude.Header.named, List.mem_append] at hc
    rcases hc with (hc | hc | hc) | hc
    · exact hg c (by simp [Prelude.Header.text, Prelude.Header.named, hc])
    · exact hw c hc
    · exact hg c (by simp [Prelude.Header.text, Prelude.Header.named, hc])
    · exact hg c (by simp [Prelude.Header.text, Prelude.Header.named, hc])
  · exact hg

/-- Each rule of the css is read as a rule. -/
theorem readRule_run (h : IsClass scope) (hf : (readSource source).faults = [])
    (hq : Unquoted (readSource source).statements)
    (hn : ∀ n ∈ names (ledger scope (readSource source).statements).filled, ∃ c ∈ n, c ≠ '\\')
    (r : Rule) (hr : r ∈ (Unnesting.start source scope Settings.standard).run.book.filled) :
    ReadRule heading r := by
  rw [(Unnesting.run_standard source scope).2] at hr
  have hl := readRule_ledger h hf hq
  by_cases hne : names (ledger scope (readSource source).statements).filled = []
  · rw [rename_of_names_nil _ _ hne] at hr
    obtain ⟨hg, hs, hd⟩ := hl r hr
    exact ⟨fun _ => heads_bare _ hg, heads_bare _ hs, hd⟩
  · rw [filled_rename_names _ _ hne] at hr
    obtain ⟨s, hs, rfl⟩ := List.mem_map.mp hr
    obtain ⟨hg, hsel, hd⟩ := hl s hs
    have hw := Namespaces.word_label h
    refine ⟨fun _ => heads_bare _ (bare_renameGroup _ _ (bare_word _ hw.2) hg),
      heads_bare _ hsel, fun d hdm => ?_⟩
    obtain ⟨e, he, rfl⟩ := List.mem_map.mp hdm
    obtain ⟨t, ht, hc, htn⟩ := hd e he
    exact copied_renameLine _ hw
      (fun n hm => settles_name _ (fun r hr => (hl r hr).1) n hm (hn n hm)) e t ht hc htn

/-- Css is read back block by block as it was laid out, with every declaration as it stands in its
rule and nothing else: as long as the source is read without a fault, its preludes hold no quote, no
slash and no semicolon, and no keyframes have a name of backslashes alone. -/
theorem css_is_read_back (h : IsClass scope) (hf : (readSource source).faults = [])
    (hq : Unquoted (readSource source).statements)
    (hn : ∀ n ∈ names (Unnesting.start source scope Settings.standard).gather.book.filled,
      ∃ c ∈ n, c ≠ '\\') :
    (readSource (Unnesting.start source scope Settings.standard).run.css).statements.map
        Statement.unplaced =
      (statements (Unnesting.start source scope Settings.standard).run.book.filled).map
        (respell heading) := by
  have hs := (Unnesting.run_standard source scope).1
  have hb : (Unnesting.start source scope Settings.standard).gather.book =
      ledger scope (readSource source).statements := (gather_book_by_path _).1
  rw [hb] at hn
  refine statements_of_spells _ _ (spells_sheet _ _ ?_ (readRule_run h hf hq hn))
  rw [hs]
  decide

theorem css_is_read_back_of_titles :
    let source := ("@keyframes \\66 ade\x7bfrom\x7btop:0;\x7d\x7d" ++
      "@media (width > 3px)\x7b.a:not(.b,&)\x7b" ++
      "animation:\\66 \"\\\"\x7d\x7b\";background:url(a;b);\x7d\x7d").toList
    (readSource (Unnesting.start source ".s".toList Settings.standard).run.css).statements.map
        Statement.unplaced =
      (statements (Unnesting.start source ".s".toList Settings.standard).run.book.filled).map
        (respell heading) := by
  intro source
  have hc : IsClass ".s".toList := ⟨'s', [], rfl, by decide⟩
  obtain ⟨hf, hq, hn⟩ : (readSource source).faults = [] ∧ Unquoted (readSource source).statements ∧
      ∀ n ∈ names (Unnesting.start source ".s".toList Settings.standard).gather.book.filled,
        ∃ c ∈ n, c ≠ '\\' := by
    decide +kernel
  exact css_is_read_back hc hf hq hn

/-- A label that comes between a backslash and the backslash it escapes leaves a string open. -/
theorem backslash_name_opens_string :
    let source := "@keyframes \\\x7bfrom\x7bcolor:red;\x7d\x7d.a\x7banimation:\"\\\\\";\x7d".toList
    IsClass ".s".toList ∧ (readSource source).faults = [] ∧
      Unquoted (readSource source).statements ∧ ∀ heading,
      (readSource (Unnesting.start source ".s".toList Settings.standard).run.css).statements.map
          Statement.unplaced ≠
        (statements (Unnesting.start source ".s".toList Settings.standard).run.book.filled).map
          (respell heading) := by
  intro source
  obtain ⟨hf, hq, hl⟩ : (readSource source).faults = [] ∧ Unquoted (readSource source).statements ∧
      (readSource
          (Unnesting.start source ".s".toList Settings.standard).run.css).statements.length ≠
        (statements
          (Unnesting.start source ".s".toList Settings.standard).run.book.filled).length := by
    decide +kernel
  refine ⟨⟨'s', [], rfl, by decide⟩, hf, hq, fun heading h => hl ?_⟩
  simpa only [List.length_map] using congrArg List.length h

end NestedCss.ReadBack
