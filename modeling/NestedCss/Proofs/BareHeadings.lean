import NestedCss.Proofs.Anchors
import NestedCss.Proofs.FlatSheets
import NestedCss.Proofs.MergedCopies

/-!
# Bare headings

A text is bare when it holds no quote, no brace, no slash and no semicolon. In front of a brace such
a text opens one block, whatever its blanks and brackets are, since nothing in it begins a string or
a comment or ends a statement. All that is put together of bare preludes and a class is bare.
-/

set_option autoImplicit false

namespace NestedCss

/-- The characters that begin a string or a comment or end a statement. -/
def Mark.bars : Text := quotes ++ ['/', ';', '{', '}']

def Text.Bare (t : Text) : Prop := ∀ c ∈ t, c ∉ Mark.bars

instance (t : Text) : Decidable t.Bare := inferInstanceAs (Decidable (∀ c ∈ t, c ∉ Mark.bars))

namespace Scan

/-! ## Reading a bare text -/

theorem enter_bare (d : Draft) (c : Char) (hc : c ∉ Mark.bars) :
    ∃ e, Mode.enter d c = (.outside e, []) := by
  simp only [Mark.bars, List.mem_append, List.mem_cons, List.not_mem_nil, or_false, not_or] at hc
  obtain ⟨hq, hs, hz, ho, hb⟩ := hc
  by_cases hp : c ∈ Mark.spacing
  · exact ⟨d.gapped, by simp [Mode.enter, hq, hs, hp]⟩
  · refine ⟨(d.mark 1 c).draft, ?_⟩
    have hm : (d.mark 1 c).statements = [] := by
      by_cases hop : c ∈ Mark.openers
      · simp [Draft.mark, hop]
      · by_cases hcl : c ∈ Mark.closers
        · simp [Draft.mark, hop, hcl]
        · simp [Draft.mark, hop, hcl, ho, hb, hz]
    simp [Mode.enter, hq, hs, hp, Outcome.gist, hm]

theorem run_bare (d : Draft) (t : Text) (ht : t.Bare) :
    ∃ e, ∀ r, Mode.run (.outside d) (t ++ r) = Mode.run (.outside e) r := by
  induction t generalizing d with
  | nil => exact ⟨d, fun _ => rfl⟩
  | cons c t ih =>
    obtain ⟨e, he⟩ := enter_bare d c (ht c (by simp))
    obtain ⟨f, hf⟩ := ih e fun a ha => ht a (by simp [ha])
    refine ⟨f, fun r => ?_⟩
    rw [List.cons_append, Mode.run, Mode.feed, he]
    exact hf r

theorem bare_unifyBreaks (t : Text) (ht : t.Bare) : (Text.unifyBreaks t).Bare := by
  have hn : '\n' ∉ Mark.bars := by decide
  fun_induction Text.unifyBreaks t with
  | case1 r ih =>
    intro c hc
    rcases List.mem_cons.mp hc with rfl | hc
    · exact hn
    · exact ih (fun a ha => ht a (by simp [ha])) c hc
  | case2 c r _ ih =>
    intro a ha
    rcases List.mem_cons.mp ha with rfl | ha
    · split
      · exact hn
      · exact ht c (by simp)
    · exact ih (fun a ha => ht a (by simp [ha])) a ha
  | case3 => simp [Text.Bare]

/-- A bare text in front of a brace opens one block. -/
theorem spells_bare (t : Text) (ht : t.Bare) : ∃ s, Spells (t ++ ['{']) [.opening s 0] := by
  obtain ⟨e, he⟩ := run_bare Draft.empty (Text.unifyBreaks t) (bare_unifyBreaks t ht)
  refine ⟨e.text, fun r => ?_⟩
  have hu : Text.unifyBreaks (t ++ ['{'] ++ r) =
      Text.unifyBreaks t ++ '{' :: Text.unifyBreaks r := by
    rw [List.append_assoc, List.singleton_append]
    exact Text.unifyBreaks_append t r '{' (by decide)
  have hm : Mode.enter e '{' = (.outside Draft.empty, [.opening e.text 0]) := by
    simp [Mode.enter, Mark.quotes, Mark.spacing, Draft.mark, Mark.openers, Mark.closers,
      Outcome.gist, Statement.unplaced]
  rw [hu, he, Mode.run, Mode.feed, hm]

/-- The prelude that a text is read as in front of a brace. -/
def heading (t : Text) : Text :=
  match (readSource (t ++ ['{'])).statements with
  | .opening s _ :: _ => s
  | _ => []

theorem heads_bare (t : Text) (ht : t.Bare) : Sheet.Heads heading t := by
  obtain ⟨s, hs⟩ := spells_bare t ht
  have hr := statements_of_spells _ _ hs
  have hh : heading t = s := by
    rw [heading]
    match h : (readSource (t ++ ['{'])).statements with
    | [] => simp [h] at hr
    | .opening a line :: ss =>
      rw [h] at hr
      simpa [Statement.unplaced] using (List.cons.inj hr).1
    | .closing _ :: ss => simp [h, Statement.unplaced] at hr
    | .declaration _ :: ss => simp [h, Statement.unplaced] at hr
    | .ending _ _ :: ss => simp [h, Statement.unplaced] at hr
    | .bare _ _ :: ss => simp [h, Statement.unplaced] at hr
  rw [Sheet.Heads, hh]
  exact hs

/-- Outside strings a fair copy holds no brace. -/
theorem neat_braces (p : Pen) (t : Text) (hn : p.neat t = true) (hs : p.watch.string = none)
    (hq : ∀ c ∈ t, c ∉ Mark.quotes) : '{' ∉ t ∧ '}' ∉ t := by
  induction t generalizing p with
  | nil => simp
  | cons c t ih =>
    rw [Pen.neat, Bool.and_eq_true] at hn
    have hqc := hq c (by simp)
    have hst : (p.step c).watch.string = none := by
      rw [Pen.watch_step]
      simp only [Path.Watch.step, hs]
      split_ifs <;> simp_all
    have hi := ih (p.step c) hn.2 hst fun a ha => hq a (by simp [ha])
    have hc : c ≠ '{' ∧ c ≠ '}' := by
      have ha := hn.1
      rw [Pen.allows, hs] at ha
      constructor <;> rintro rfl <;> simp [Mark.spacing] at ha
    simp only [List.mem_cons, not_or]
    exact ⟨⟨hc.1.symm, hi.1⟩, hc.2.symm, hi.2⟩

end Scan

/-! ## Bare keys -/

namespace Filing
open NestedCss.Path Scope Text

variable {scope : Text}

theorem bare_word (w : Text) (hw : ∀ c ∈ w, isWord c = true) : w.Bare := by
  have hb : ∀ c ∈ Mark.bars, isWord c = false := by decide
  exact fun c hc hm => by simpa [hb c hm] using hw c hc

theorem bare_class (h : Containment.IsClass scope) : scope.Bare := by
  obtain ⟨a, w, rfl, hw⟩ := h
  intro c hc
  rcases List.mem_cons.mp hc with rfl | hc
  · decide
  · exact bare_word (a :: w) hw c hc

theorem bare_anchor (stack : List Text) (t : Text) (ht : t.Bare) : (anchor scope stack t).Bare := by
  intro c hc
  rcases mem_anchor stack t c hc with rfl | rfl | hc
  · decide
  · decide
  · exact ht c hc

theorem bare_compose (ts : List Text) (h : ∀ t ∈ ts, t.Bare) : (compose ts).Bare := by
  cases ts with
  | nil => simp [compose, Bare]
  | cons t ts =>
    intro c hc
    rcases mem_foldl c t ts hc with rfl | rfl | hc | ⟨s, hs, hc⟩
    · decide
    · decide
    · exact h t (by simp) c hc
    · exact h s (by simp [hs]) c hc

theorem bare_conjoin (ts : List Text) (h : ∀ t ∈ ts, t.Bare) : (Condition.conjoin ts).Bare := by
  cases ts with
  | nil => simp [Condition.conjoin, Bare]
  | cons t ts =>
    have hm : Bare "@media".toList := by decide
    have hj : Bare Condition.joint := by decide
    intro c hc
    rcases Condition.mem_conjoin c t ts hc with hc | hc | ⟨s, hs, hc⟩
    · exact hm c hc
    · exact hj c hc
    · exact h s hs c hc

/-- The key of a stack of bare texts is bare. -/
theorem bare_key (stack : List Text) (h : ∀ t ∈ stack, t.Bare) :
    (Key.ofStack stack).group.Bare ∧ (Key.ofStack stack).selector.Bare := by
  have hr := resolves_of_stack stack
  generalize Key.ofStack stack = k at hr ⊢
  cases hr with
  | keyframes below above header hh ha =>
    exact ⟨h header (by simp), bare_compose above fun t ht => h t (by simp [ht])⟩
  | plain hs =>
    exact ⟨bare_conjoin _ fun t ht => h t (List.mem_of_mem_filter ht),
      bare_compose _ fun t ht => h t (List.mem_of_mem_filter ht)⟩

theorem bare_path (h : Containment.IsClass scope) (ps : List Text) (hp : ∀ t ∈ ps, t.Bare) :
    (pathKey scope ps).group.Bare ∧ (pathKey scope ps).selector.Bare := by
  apply bare_key
  intro t ht
  rw [pathStack_head] at ht
  rcases List.mem_cons.mp ht with rfl | ht
  · exact bare_class h
  · exact forall_stack scope Bare ps (fun stack a => bare_anchor stack a) hp t ht

end Filing

end NestedCss
