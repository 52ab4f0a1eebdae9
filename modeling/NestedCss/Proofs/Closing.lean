import NestedCss.Proofs.Drafts
import NestedCss.Proofs.Relexing
import NestedCss.Proofs.Watching

/-!
# Openings that are closed

A source that is read without a fault closes its strings and brackets before each brace. The watch
over what has been written of a statement stands outside strings and as deep in brackets as the
reading does, so it is back at the start where a block is opened.
-/

set_option autoImplicit false

namespace NestedCss.Scan
open NestedCss.Path

theorem steps_readString (q : Char) (t body r : Text) (n : Nat) (hq : q ∈ Mark.quotes)
    (h : readString q t = (body, .closed, r)) :
    Watch.steps ⟨some (q, false), n⟩ (body ++ [q]) = ⟨none, n⟩ := by
  have hb : q ≠ '\\' := by
    rintro rfl
    exact absurd hq (by decide)
  fun_induction readString q t generalizing body r with
  | case1 => simp at h
  | case2 => simp at h
  | case3 c t body' ending rest hr ih =>
    simp only [Prod.mk.injEq] at h
    obtain ⟨rfl, rfl, rfl⟩ := h
    have hs := ih body' rest hr
    simpa [Watch.steps, Watch.step] using hs
  | case4 c t => simp at h
  | case5 c t _ _ _ hc =>
    simp only [Prod.mk.injEq, true_and] at h
    obtain ⟨rfl, rfl⟩ := h
    simp [Watch.steps, Watch.step, hb]
  | case6 c t h₁ h₂ hnl hc body' ending rest hr ih =>
    simp only [Prod.mk.injEq] at h
    obtain ⟨rfl, rfl, rfl⟩ := h
    have hne := ne_backslash c t h₁ h₂
    have hs := ih body' rest hr
    simpa [Watch.steps, Watch.step, hne, hc] using hs

/-- The watch stands outside strings behind what has been written, as deep as the draft. -/
def Watched (d : Draft) : Prop := Watch.start.steps d.written.reverse = ⟨none, d.depth⟩

theorem watched_put (d : Draft) (p : Text) (m k : Nat) (h : Watched d)
    (hp : Watch.steps ⟨none, d.depth⟩ p = ⟨none, k⟩) :
    Watched { Draft.put { d with depth := m } p with depth := k } := by
  show Watch.start.steps (Draft.put { d with depth := m } p).written.reverse = ⟨none, k⟩
  have hg : Watch.steps ⟨none, d.depth⟩ (Draft.glue { d with depth := m } p) = ⟨none, d.depth⟩ := by
    rw [Draft.glue]
    split <;> rfl
  have hw : Watch.start.steps d.written.reverse = ⟨none, d.depth⟩ := h
  rw [Draft.written_put]
  simp only [Watch.steps_append]
  rw [hw, hg, hp]

theorem watched_mark (d : Draft) (c : Char) (line : Int) (h : Watched d) (hq : c ∉ Mark.quotes) :
    Watched (d.mark line c).draft := by
  simp only [Draft.mark, List.contains_iff_mem]
  split_ifs with ho hc
  · exact watched_put d [c] d.depth _ h (by simp [Watch.steps, Watch.step, hq, ho])
  · exact watched_put d [c] (d.depth - 1) _ h (by simp [Watch.steps, Watch.step, hq, ho, hc])
  · rfl
  · rfl
  · rfl
  · exact watched_put d [c] d.depth _ h (by simp [Watch.steps, Watch.step, hq, ho, hc])

/-- Whether the text of an opening ends outside strings and brackets. -/
def Closed : Statement → Prop
  | .opening t _ => Watch.start.steps t = Watch.start
  | _ => True

theorem closed_declarations (d : Draft) (line : Int) : ∀ s ∈ d.declarations line, Closed s := by
  intro s hs
  simp only [Draft.declarations, List.mem_map] at hs
  obtain ⟨e, -, rfl⟩ := hs
  trivial

theorem closed_mark (d : Draft) (c : Char) (h : Watched d) (hf : (d.mark 1 c).faults = []) :
    ∀ s ∈ (d.mark 1 c).statements, Closed s := by
  simp only [Draft.mark] at hf ⊢
  split_ifs at hf ⊢
  · simp
  · simp
  · have hd : d.depth = 0 := by simpa [Draft.bracketFaults] using hf
    have hw : Watch.start.steps d.written.reverse = ⟨none, d.depth⟩ := h
    rw [hd] at hw
    intro s hs
    rw [List.mem_singleton.mp hs]
    exact Watch.steps_trim _ hw
  · intro s hs
    rcases List.mem_append.mp hs with hs | hs
    · exact closed_declarations d 1 s hs
    · rw [List.mem_singleton.mp hs]
      trivial
  · exact closed_declarations d 1
  · simp

theorem step_closed (d : Draft) (t r : Text) (x : Lexeme) (h : Watched d)
    (hx : next? d.depth t = some (x, r)) (hf : (d.step 1 x).faults = []) :
    (∀ s ∈ (d.step 1 x).statements, Closed s) ∧ Watched (d.step 1 x).draft := by
  cases x with
  | blank c => exact ⟨by simp [Draft.step], h⟩
  | blockComment body closed => exact ⟨by simp [Draft.step], h⟩
  | lineComment body => exact ⟨by simp [Draft.step], h⟩
  | mark c =>
    have hq := ((next?_mark_iff d.depth t r c).mp hx).2.1
    exact ⟨closed_mark d c h hf, watched_mark d c 1 h hq⟩
  | quotation q body ending =>
    obtain ⟨hq, s, rfl, hs⟩ := next?_quotation d.depth t r body q ending hx
    refine ⟨by simp [Draft.step], ?_⟩
    cases ending with
    | broken => simp [Draft.step, Draft.stringFaults] at hf
    | cut => simp [Draft.step, Draft.stringFaults] at hf
    | closed =>
      apply watched_put d (q :: body ++ [q]) d.depth d.depth h
      have hb := steps_readString q s body r d.depth hq hs
      have ho : Watch.step ⟨none, d.depth⟩ q = ⟨some (q, false), d.depth⟩ := by
        simp [Watch.step, hq]
      rw [List.cons_append, Watch.steps, List.foldl_cons, ho]
      exact hb

theorem gist_closed (n : Nat) (d : Draft) (t : Text) (hn : d.depth = n) (h : Watched d)
    (hf : (gist d t).causes = []) : ∀ s ∈ (gist d t).statements, Closed s := by
  induction n, t using lexemes.induct generalizing d with
  | case1 n t hx =>
    obtain rfl := (next?_eq_none_iff n t).mp hx
    intro s hs
    rw [gist_nil] at hs
    obtain ⟨a, ha, rfl⟩ := List.mem_map.mp hs
    have hc := closed_declarations d 1 a ha
    cases a <;> exact hc
  | case2 n t x r hx ih =>
    subst hn
    rw [gist_next d t r x hx] at hf ⊢
    obtain ⟨hf₁, hf₂⟩ := List.append_eq_nil_iff.mp hf
    have hs := step_closed d t r x h hx (List.map_eq_nil_iff.mp hf₁)
    have hr := ih (d.step 1 x).draft (Draft.depth_step d 1 x) hs.2 hf₂
    intro s hm
    rcases List.mem_append.mp hm with hm | hm
    · obtain ⟨a, ha, rfl⟩ := List.mem_map.mp hm
      have hc := hs.1 a ha
      cases a <;> exact hc
    · exact hr s hm

/-- In a source that is read without a fault each opening ends outside strings and brackets. -/
theorem opening_closed (source t : Text) (line : Int) (hf : (readSource source).faults = [])
    (h : .opening t line ∈ (readSource source).statements) :
    Watch.start.steps t = Watch.start := by
  have hg := gist_closed 0 Draft.empty (Text.unifyBreaks source) rfl rfl (by
    rw [← gist_source, Reading.gist, hf]
    rfl)
  exact hg (.opening t 0) (List.mem_map.mpr ⟨_, h, rfl⟩)

end NestedCss.Scan
