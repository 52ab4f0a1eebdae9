import NestedCss.Proofs.Closing
import NestedCss.Proofs.FairCopies
import NestedCss.Proofs.Trimming

/-!
# Statements as fair copies

What is read without a fault has been written fairly. While a source is read the draft holds a neat
text, as deep in brackets as the draft, and no comment begins between it and the rest. So the
prelude of each block and each declaration is a fair copy of itself.
-/

set_option autoImplicit false

namespace NestedCss.Scan
open NestedCss.Path

/-- What holds of a draft while a source is read without a fault. -/
structure Inked (d : Draft) (t : Text) : Prop where
  neat : Pen.start.neat d.core = true
  closed : Watch.start.steps d.core = ⟨none, d.depth⟩
  ends : d.core.getLast? ≠ some ' '
  apart : d.gap = false → Apart d.depth d.core t

/-- A character that may go into a draft by itself. -/
structure Bare (depth : Nat) (c : Char) : Prop where
  spacing : c ∉ Mark.spacing
  opening : c ≠ '{'
  closing : c ≠ '}'
  semicolon : c = ';' → depth ≠ 0

theorem Bare.allows {p : Pen} {c : Char} (h : Bare p.watch.depth c) (hs : p.watch.string = none)
    (hf : p.fits c = true) : p.allows c = true := by
  have hb : c ≠ ' ' := by
    rintro rfl
    exact h.spacing (by decide)
  have hz : c ≠ ';' ∨ p.watch.depth ≠ 0 := not_or_of_imp h.semicolon
  simp [Pen.allows, hs, hb, h.spacing, h.opening, h.closing, hf, hz]

variable {d : Draft} {t r : Text} {c : Char}

theorem Inked.pen (h : Inked d t) : Pen.start.steps d.core =
    ⟨d.core.getLast?.getD ',', false, ⟨none, d.depth⟩⟩ := by
  have hw : (Pen.start.steps d.core).watch = ⟨none, d.depth⟩ :=
    (Pen.watch_steps _ _).trans h.closed
  rcases List.eq_nil_or_concat d.core with hn | ⟨u, a, hu⟩
  · rw [hn] at hw ⊢
    have hd : d.depth = 0 := (congrArg Watch.depth hw).symm
    rw [hd]
    rfl
  · rw [List.concat_eq_append] at hu
    have ha : a ≠ ' ' := by
      rintro rfl
      exact h.ends (by rw [hu]; simp)
    have hc : Pen.start.watch.steps (u ++ [a]) = ⟨none, d.depth⟩ := hu ▸ h.closed
    rw [hu, Pen.steps_concat _ u a ha, hc]
    simp

/-- The depth at which a character is put into a draft. -/
def Draft.depthOf (d : Draft) (c : Char) : Nat :=
  if Mark.closers.contains c then d.depth - 1 else d.depth

/-- A character goes behind the core as the pen allows, with a space or without. -/
theorem neat_glue (v : Text) (h : Inked d (c :: r)) (hn : d.core ≠ []) (hb : Bare d.depth c) :
    let glue := Draft.glue { d with depth := d.depthOf c } (c :: v)
    (Pen.start.steps d.core).neat (glue ++ [c]) = true ∧
      (Pen.start.steps d.core).steps (glue ++ [c]) =
        ⟨c, false, Watch.step ⟨none, d.depth⟩ c⟩ := by
  intro glue
  have hl := Draft.written_head d hn
  have hc : c ≠ ' ' := by
    rintro rfl
    exact hb.spacing (by decide)
  obtain ⟨a, ha⟩ : ∃ a, d.core.getLast? = some a := by
    cases hg : d.core.getLast? with
    | none => exact absurd (List.getLast?_eq_none_iff.mp hg) hn
    | some a => exact ⟨a, rfl⟩
  rw [h.pen, ha, Option.getD_some]
  by_cases hs : Draft.spaces { d with depth := d.depthOf c } (c :: v) = true
  · have hg : glue = [' '] := if_pos hs
    have hf : Pen.fits ⟨a, true, ⟨none, d.depth⟩⟩ c = true := by
      rw [Draft.spaces_eq] at hs
      simpa [hl, ha, Draft.isTight, Draft.depthOf, Pen.fits, Pen.depthOf, isTight] using
        (Bool.and_eq_true_iff.mp hs).2
    have ht := hb.allows (p := ⟨a, true, ⟨none, d.depth⟩⟩) rfl hf
    rw [hg]
    constructor
    · have hsp : Pen.allows ⟨a, false, ⟨none, d.depth⟩⟩ ' ' = true := rfl
      have hst : Pen.step ⟨a, false, ⟨none, d.depth⟩⟩ ' ' = ⟨a, true, ⟨none, d.depth⟩⟩ := rfl
      simp [Pen.neat, hsp, hst, ht]
    · exact Pen.step_solid _ c hc
  · have hg : glue = [] := if_neg hs
    have hp : Apart d.depth d.core (c :: r) := by
      by_cases hgap : d.gap = false
      · exact h.apart hgap
      · have ht := apart_of_tight { d with depth := d.depthOf c } d.depth c v (by simpa using hgap)
          (by simpa using hs)
        exact apart_piece d.depth d.core [c] v r (by simp) ht
    have hf : Pen.fits ⟨a, false, ⟨none, d.depth⟩⟩ c = true := by
      by_cases hsl : a = '/'
      · obtain ⟨hs₁, hs₂⟩ := hp (hsl ▸ ha)
        simp only [List.head?_cons, ne_eq, Option.some.injEq] at hs₁ hs₂
        simpa [Pen.fits, hsl, hs₁, imp_iff_not_or, or_comm] using hs₂
      · simp [Pen.fits, hsl]
    have ht := hb.allows (p := ⟨a, false, ⟨none, d.depth⟩⟩) rfl hf
    rw [hg]
    exact ⟨by simp [Pen.neat, ht], Pen.step_solid _ c hc⟩

/-- What a piece that is put does to the core. -/
theorem core_put_neat (v : Text) (h : Inked d (c :: r)) (hb : Bare d.depth c)
    (hc : d.core = [] → Text.isBlank c = false) :
    Pen.start.neat (Draft.put { d with depth := d.depthOf c } (c :: v)).core =
      Pen.neat ⟨c, false, Watch.step ⟨none, d.depth⟩ c⟩ v ∧
    Watch.start.steps (Draft.put { d with depth := d.depthOf c } (c :: v)).core =
      Watch.steps ⟨none, d.depth⟩ (c :: v) ∧
    (Draft.put { d with depth := d.depthOf c } (c :: v)).core.getLast? = (c :: v).getLast? := by
  have hsp : c ≠ ' ' := by
    rintro rfl
    exact hb.spacing (by decide)
  by_cases hn : d.core = []
  · have hd : d.depth = 0 := by
      have hw := h.closed
      rw [hn] at hw
      exact (congrArg Watch.depth hw).symm
    rw [hd] at hb
    have ha : Pen.start.allows c = true := Bare.allows hb rfl rfl
    rw [Draft.core_put_of_core_nil { d with depth := d.depthOf c } (c :: v) hn,
      List.dropWhile_cons_of_neg (by simp [hc hn]), Pen.neat, ha, Pen.step_solid _ c hsp, hd]
    exact ⟨rfl, rfl, rfl⟩
  · obtain ⟨hg, hs⟩ := neat_glue v h hn hb
    have he : (Draft.put { d with depth := d.depthOf c } (c :: v)).core =
        d.core ++ ((Draft.glue { d with depth := d.depthOf c } (c :: v) ++ [c]) ++ v) := by
      rw [Draft.core_put_of_core_ne_nil { d with depth := d.depthOf c } (c :: v) hn]
      simp [Draft.core]
    have hw : Watch.steps ⟨none, d.depth⟩ (Draft.glue { d with depth := d.depthOf c } (c :: v)) =
        ⟨none, d.depth⟩ := by
      rw [Draft.glue]
      split <;> rfl
    rw [he]
    refine ⟨?_, ?_, ?_⟩
    · rw [Pen.neat_append, h.neat, Pen.neat_append, hg, hs]
      rfl
    · rw [Watch.steps_append, h.closed, Watch.steps_append, Watch.steps_append, hw]
      rfl
    · simp [List.getLast?_append, List.getLast?_cons]

theorem inked_empty (t : Text) : Inked Draft.empty t :=
  ⟨rfl, rfl, by simp [Draft.core, Draft.empty], fun _ => apart_nil 0 t⟩

theorem inked_gap (r : Text) (h : Inked d t) : Inked { d with gap := true } r :=
  ⟨h.neat, h.closed, h.ends, fun hg => absurd hg (by simp)⟩

/-! ## The statements -/

theorem Inked.fair (h : Inked d t) (hd : d.depth = 0) :
    Fair d.text ∧ Text.trim d.text = d.text := by
  have htt : Text.trim d.text = d.text := Text.trim_trim _
  have hb : d.text ++ d.core.rtakeWhile Text.isBlank = d.core := by
    rw [Draft.text_eq_core, Text.dropTail, List.rtakeWhile, ← List.reverse_append,
      List.takeWhile_append_dropWhile, List.reverse_reverse]
  have hbb : ∀ c ∈ d.core.rtakeWhile Text.isBlank, Text.isBlank c = true :=
    fun c => List.mem_rtakeWhile_imp
  have hn := h.neat
  have hc := h.closed
  rw [← hb, Pen.neat_append, Bool.and_eq_true] at hn
  rw [← hb, Watch.steps_append, hd] at hc
  refine ⟨⟨hn.1, Watch.steps_blanks _ _ (Watch.sane_steps _ _ Watch.sane_start) hbb hc, ?_⟩, htt⟩
  intro he
  exact absurd (((Text.trimmed_iff _).mp htt).2 ' ' he) (by decide)

/-- Whether the text of a statement is a fair copy. -/
def FairStatement : Statement → Prop
  | .opening t _ => Fair t ∧ Text.trim t = t
  | .declaration d => ∃ t, d.text = t ++ [';'] ∧ Fair t ∧ Text.trim t = t ∧ t ≠ []
  | _ => True

theorem fair_unplaced (s : Statement) (h : FairStatement s) : FairStatement s.unplaced := by
  cases s <;> exact h

theorem fair_declarations (line : Int) (h : Inked d t) (hd : d.depth = 0) :
    ∀ s ∈ d.declarations line, FairStatement s := by
  intro s hs
  obtain ⟨hf, ht⟩ := h.fair hd
  by_cases hn : d.text = []
  · simp [Draft.declarations, Draft.declaration?, hn] at hs
  · simp only [Draft.declarations, Draft.declaration?, if_neg hn, Option.toList_some,
      List.map_cons, List.map_nil, List.mem_singleton] at hs
    rw [hs]
    exact ⟨d.text, rfl, hf, ht, hn⟩

theorem depth_of_bracketFaults (line : Int) (h : d.bracketFaults line = []) : d.depth = 0 := by
  simpa [Draft.bracketFaults] using h

/-- A mark that ends no statement is put at its depth. -/
theorem mark_bare (hq : c ∉ Mark.quotes) (hb : Bare d.depth c) :
    d.mark 1 c = ⟨{ Draft.put { d with depth := d.depthOf c } [c] with
      depth := (Watch.step ⟨none, d.depth⟩ c).depth }, [], []⟩ := by
  obtain ⟨-, ho, hc, hz⟩ := hb
  have hn : ¬ (c = ';' ∧ d.depth = 0) := fun h => hz h.1 h.2
  by_cases hop : c ∈ Mark.openers
  · have hcl := Mark.openers_not_closers c hop
    simp [Draft.mark, hop, Watch.step, hq, Draft.depthOf, hcl]
  by_cases hcl : c ∈ Mark.closers
  · simp [Draft.mark, hop, hcl, Watch.step, hq, Draft.depthOf, Draft.put]
  · simp [Draft.mark, hop, hcl, ho, hc, hn, Watch.step, hq, Draft.depthOf, Draft.put]

theorem inked_put_mark (h : Inked d (c :: r)) (hq : c ∉ Mark.quotes) (hb : Bare d.depth c)
    (hs : c = '/' → Separate d.depth r) :
    Inked { Draft.put { d with depth := d.depthOf c } [c] with
      depth := (Watch.step ⟨none, d.depth⟩ c).depth } r := by
  have hw : Watch.step ⟨none, d.depth⟩ c = ⟨none, (Watch.step ⟨none, d.depth⟩ c).depth⟩ := by
    simp only [Watch.step]
    split_ifs <;> simp_all
  by_cases hk : d.core = [] → Text.isBlank c = false
  · obtain ⟨hn, hc, hl⟩ := core_put_neat [] h hb hk
    refine ⟨hn, hc.trans hw, ?_, fun _ hsl => ?_⟩
    · intro he
      have hsp : c = ' ' := by simpa using hl.symm.trans he
      exact hb.spacing (hsp ▸ by decide)
    · have hsl' : c = '/' := by simpa using hl.symm.trans hsl
      subst hsl'
      exact hs rfl
  · obtain ⟨hn, hcb⟩ := Classical.not_imp.mp hk
    have hcb' : Text.isBlank c = true := by simpa using hcb
    have he : (Draft.put { d with depth := d.depthOf c } [c]).core = [] := by
      rw [Draft.core_put_of_core_nil { d with depth := d.depthOf c } [c] hn]
      simp [hcb']
    have hu := Watch.step_unheeded ⟨none, d.depth⟩ c (by simp [Watch.Sane])
      (Watch.unheeded_blank c hcb')
    have hc := h.closed
    rw [hn] at hc
    rw [hu]
    refine ⟨?_, ?_, ?_, fun _ => ?_⟩ <;> simp only [Draft.core] at he ⊢ <;> rw [he]
    · rfl
    · exact hc
    · simp
    · exact apart_nil _ r

theorem neat_readString (q : Char) (t body r : Text) (a : Char) (n : Nat) (hq : q ∈ Mark.quotes)
    (h : readString q t = (body, .closed, r)) :
    Pen.neat ⟨a, false, ⟨some (q, false), n⟩⟩ (body ++ [q]) = true := by
  have hn : q ≠ '\n' := by
    rintro rfl
    exact absurd hq (by decide)
  fun_induction readString q t generalizing body r a with
  | case1 => simp at h
  | case2 => simp at h
  | case3 c t body' ending rest hr ih =>
    simp only [Prod.mk.injEq] at h
    obtain ⟨rfl, rfl, rfl⟩ := h
    have hi := ih body' rest c hr
    simpa [Pen.neat, Pen.allows, Pen.step, Watch.step] using hi
  | case4 c t => simp at h
  | case5 c t _ _ _ hc =>
    simp only [Prod.mk.injEq, true_and] at h
    obtain ⟨rfl, rfl⟩ := h
    simp [Pen.neat, Pen.allows, hn]
  | case6 c t h₁ h₂ hnl hc body' ending rest hr ih =>
    simp only [Prod.mk.injEq] at h
    obtain ⟨rfl, rfl, rfl⟩ := h
    have hne := ne_backslash c t h₁ h₂
    have hi := ih body' rest c hr
    have hnl' : c ≠ '\n' := by simpa using hnl
    simpa [Pen.neat, Pen.allows, Pen.step, Watch.step, hne, hc, hnl'] using hi

theorem inked_put_string {q : Char} {s body : Text} (h : Inked d (q :: s)) (hq : q ∈ Mark.quotes)
    (hs : readString q s = (body, .closed, r)) :
    Inked (d.put (Draft.stringText q body .closed)) r := by
  have hb : Bare d.depth q := by
    refine ⟨fun hm => ?_, ?_, ?_, ?_⟩
    · exact Bool.noConfusion ((Mark.quotes_solid q hq).symm.trans (Mark.spacing_blank q hm))
    all_goals
      rintro rfl
      exact absurd hq (by decide)
  have hd : d.depthOf q = d.depth := by
    simp [Draft.depthOf, Mark.quotes_not_closers q hq]
  have hw : Watch.step ⟨none, d.depth⟩ q = ⟨some (q, false), d.depth⟩ := by simp [Watch.step, hq]
  obtain ⟨hn, hc, hl⟩ := core_put_neat (body ++ [q]) h hb fun _ => Mark.quotes_solid q hq
  have ht : Draft.stringText q body .closed = q :: (body ++ [q]) := rfl
  have hlast : (q :: (body ++ [q])).getLast? = some q := by simp [List.getLast?_cons]
  rw [hd] at hn hc hl
  rw [ht]
  refine ⟨?_, ?_, ?_, fun _ hsl => ?_⟩
  · rw [hn, hw]
    exact neat_readString q s body r q d.depth hq hs
  · rw [hc, Watch.steps, List.foldl_cons, hw]
    exact steps_readString q s body r d.depth hq hs
  · rw [hl]
    intro he
    obtain rfl : q = ' ' := Option.some.inj (hlast.symm.trans he)
    exact hb.spacing (by decide)
  · rw [hl] at hsl
    obtain rfl : q = '/' := Option.some.inj (hlast.symm.trans hsl)
    exact absurd hq (by decide)

theorem inked_mark (h : Inked d t) (hx : next? d.depth t = some (.mark c, r))
    (hf : (d.mark 1 c).faults = []) :
    (∀ s ∈ (d.mark 1 c).statements, FairStatement s) ∧ Inked (d.mark 1 c).draft r := by
  obtain ⟨rfl, hq, hb, hs⟩ := (next?_mark_iff d.depth t r c).mp hx
  by_cases ho : c = '{'
  · subst ho
    have hm : d.mark 1 '{' = ⟨Draft.empty, d.bracketFaults 1, [.opening d.text 1]⟩ := rfl
    rw [hm] at hf ⊢
    refine ⟨fun s hs => ?_, inked_empty r⟩
    rw [List.mem_singleton.mp hs]
    exact h.fair (depth_of_bracketFaults 1 hf)
  by_cases hc : c = '}'
  · subst hc
    have hm : d.mark 1 '}' =
        ⟨Draft.empty, d.bracketFaults 1, d.declarations 1 ++ [Statement.closing 1]⟩ := rfl
    rw [hm] at hf ⊢
    refine ⟨fun s hs => ?_, inked_empty r⟩
    rcases List.mem_append.mp hs with hs | hs
    · exact fair_declarations 1 h (depth_of_bracketFaults 1 hf) s hs
    · rw [List.mem_singleton.mp hs]
      trivial
  by_cases hz : c = ';' ∧ d.depth = 0
  · obtain ⟨rfl, hd⟩ := hz
    have hm : d.mark 1 ';' = ⟨Draft.empty, [], d.declarations 1⟩ := by
      simp [Draft.mark, Mark.openers, Mark.closers, hd]
    rw [hm]
    exact ⟨fair_declarations 1 h hd, inked_empty r⟩
  · have hbare : Bare d.depth c := ⟨hb, ho, hc, fun h₁ h₂ => hz ⟨h₁, h₂⟩⟩
    rw [mark_bare hq hbare]
    exact ⟨by simp, inked_put_mark h hq hbare hs⟩

theorem inked_step (x : Lexeme) (h : Inked d t) (hx : next? d.depth t = some (x, r))
    (hf : (d.step 1 x).faults = []) :
    (∀ s ∈ (d.step 1 x).statements, FairStatement s) ∧ Inked (d.step 1 x).draft r := by
  cases x with
  | blank c => exact ⟨by simp [Draft.step], inked_gap r h⟩
  | blockComment body closed => exact ⟨by simp [Draft.step], inked_gap r h⟩
  | lineComment body => exact ⟨by simp [Draft.step], inked_gap r h⟩
  | mark c => exact inked_mark h hx hf
  | quotation q body ending =>
    obtain ⟨hq, s, rfl, hs⟩ := next?_quotation d.depth t r body q ending hx
    refine ⟨by simp [Draft.step], ?_⟩
    cases ending with
    | broken => simp [Draft.step, Draft.stringFaults] at hf
    | cut => simp [Draft.step, Draft.stringFaults] at hf
    | closed => exact inked_put_string h hq hs

/-- What is read without a fault is fair, from any point of the reading on. -/
theorem gist_fair (n : Nat) (d : Draft) (t : Text) (hn : d.depth = n) (h : Inked d t)
    (hf : (gist d t).causes = []) : ∀ s ∈ (gist d t).statements, FairStatement s := by
  induction n, t using lexemes.induct generalizing d with
  | case1 n t hx =>
    obtain rfl := (next?_eq_none_iff n t).mp hx
    intro s hs
    rw [gist_nil] at hs hf
    obtain ⟨a, ha, rfl⟩ := List.mem_map.mp hs
    have hb : d.bracketFaults 1 = [] :=
      (List.append_eq_nil_iff.mp (List.map_eq_nil_iff.mp hf)).1
    exact fair_unplaced a (fair_declarations 1 h (depth_of_bracketFaults 1 hb) a ha)
  | case2 n t x r hx ih =>
    subst hn
    rw [gist_next d t r x hx] at hf ⊢
    obtain ⟨hf₁, hf₂⟩ := List.append_eq_nil_iff.mp hf
    have hs := inked_step x h hx (List.map_eq_nil_iff.mp hf₁)
    have hr := ih (d.step 1 x).draft (Draft.depth_step d 1 x) hs.2 hf₂
    intro s hm
    rcases List.mem_append.mp hm with hm | hm
    · obtain ⟨a, ha, rfl⟩ := List.mem_map.mp hm
      exact fair_unplaced a (hs.1 a ha)
    · exact hr s hm

/-- In a source that is read without a fault the prelude of each block and each declaration is a
fair copy. -/
theorem statements_fair (source : Text) (hf : (readSource source).faults = []) :
    ∀ s ∈ (readSource source).statements, FairStatement s := by
  intro s hs
  have hg := gist_fair 0 Draft.empty (Text.unifyBreaks source) rfl (inked_empty _) (by
    rw [← gist_source, Reading.gist, hf]
    rfl) s.unplaced (List.mem_map_of_mem hs)
  cases s <;> exact hg

end NestedCss.Scan
