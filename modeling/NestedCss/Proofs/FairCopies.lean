import NestedCss.Proofs.Modes
import NestedCss.Proofs.Watching

/-!
# Fair copies

A text is a fair copy when it is read into a statement just as it stands: no blank of it is dropped
or put in, no comment begins in it, and its strings and brackets are closed at the end. A pen knows
what the next character depends on, so a copy is judged character by character and two copies put
together are judged at their joint alone.
-/

set_option autoImplicit false

namespace NestedCss.Scan

open NestedCss.Path

/-- What the next character of a copy depends on. -/
structure Pen where
  /-- The last character. A comma stands for the start, since both take no space behind them. -/
  last : Char
  /-- Whether a space has come after it. -/
  gap : Bool
  /-- The string and the brackets that are open. -/
  watch : Watch
  deriving DecidableEq, Repr

def isTight (depth : Nat) (c : Char) : Bool := (Mark.tight (depth > 0)).contains c

namespace Pen

def start : Pen := ⟨',', false, Watch.start⟩

/-- The depth at which a character is put: a closer stands outside of what it closes. -/
def depthOf (p : Pen) (c : Char) : Nat :=
  if Mark.closers.contains c then p.watch.depth - 1 else p.watch.depth

/-- Whether a character outside strings may come behind the last one and the gap. -/
def fits (p : Pen) (c : Char) : Bool :=
  if p.gap then !isTight (p.depthOf c) p.last && !isTight (p.depthOf c) c
  else !(p.last == '/' && (c == '*' || c == '/' && p.watch.depth == 0))

/-- Whether the character goes into a statement as it stands. -/
def allows (p : Pen) (c : Char) : Bool :=
  match p.watch.string with
  | some (_, escaped) => escaped || c != '\n'
  | none =>
    if c == ' ' then !p.gap
    else !Mark.spacing.contains c && c != '{' && c != '}' && (c != ';' || p.watch.depth != 0) &&
      p.fits c

def step (p : Pen) (c : Char) : Pen :=
  if p.watch.string.isNone && c == ' ' then { p with gap := true }
  else ⟨c, false, p.watch.step c⟩

def steps (p : Pen) (t : Text) : Pen := t.foldl step p

def neat (p : Pen) : Text → Bool
  | [] => true
  | c :: r => p.allows c && neat (p.step c) r

theorem steps_append (p : Pen) (s t : Text) : p.steps (s ++ t) = (p.steps s).steps t :=
  List.foldl_append

theorem neat_append (p : Pen) (s t : Text) :
    p.neat (s ++ t) = (p.neat s && (p.steps s).neat t) := by
  induction s generalizing p with
  | nil => rfl
  | cons c s ih => simp [neat, ih, steps, Bool.and_assoc]

theorem watch_step (p : Pen) (c : Char) : (p.step c).watch = p.watch.step c := by
  rw [step]
  split
  · next h =>
    obtain ⟨last, gap, string, depth⟩ := p
    simp only [Bool.and_eq_true, Option.isNone_iff_eq_none, beq_iff_eq] at h
    obtain ⟨rfl, rfl⟩ := h
    rfl
  · rfl

theorem watch_steps (p : Pen) (t : Text) : (p.steps t).watch = p.watch.steps t := by
  induction t generalizing p with
  | nil => rfl
  | cons c t ih => exact (ih (p.step c)).trans (by rw [watch_step]; rfl)

theorem step_solid (p : Pen) (c : Char) (h : c ≠ ' ') : p.step c = ⟨c, false, p.watch.step c⟩ := by
  simp [step, h]

theorem steps_concat (p : Pen) (t : Text) (c : Char) (h : c ≠ ' ') :
    p.steps (t ++ [c]) = ⟨c, false, p.watch.steps (t ++ [c])⟩ := by
  rw [steps_append, Watch.steps_append, ← watch_steps]
  exact step_solid _ c h

end Pen

/-! ## Reading a neat text -/

/-- Where a reader stands that has written `w`, the latest character first, as the pen has. -/
inductive Holds : Pen → Text → Mode → Prop where
  | outside (p : Pen) (w : Text) (hl : p.last = w.headD ',') (hs : p.watch.string = none)
      (hn : p.gap = false → p.last ≠ '/') : Holds p w (.outside ⟨w, p.gap, p.watch.depth⟩)
  | slash (p : Pen) (w : Text) (e : Draft) (hl : p.last = w.headD ',')
      (hs : p.watch.string = none) (hg : p.gap = false) (hn : p.last = '/') :
      Holds p w (.slash ⟨w, false, p.watch.depth⟩ e)
  | string (p : Pen) (w : Text) (q : Char) (escaped : Bool) (hs : p.watch.string = some (q, escaped))
      (hg : p.gap = false) (hq : q ∈ Mark.quotes) : Holds p w (.string ⟨w, false, p.watch.depth⟩ q escaped)

/-- What the pen has written, with the gap. -/
def Pen.page (p : Pen) (w : Text) : Text := if p.gap then ' ' :: w else w

theorem holds_start : Holds Pen.start [] (.outside Draft.empty) :=
  .outside Pen.start [] rfl rfl (by decide)

theorem put_page (p : Pen) (w : Text) (c : Char) (hl : p.last = w.headD ',')
    (hf : p.fits c = true) :
    Draft.put ⟨w, p.gap, p.depthOf c⟩ [c] = ⟨c :: p.page w, false, p.depthOf c⟩ := by
  cases hg : p.gap with
  | false => simp [Draft.put, Draft.spaces, Pen.page, hg]
  | true =>
    simp only [Pen.fits, hg, if_true, Bool.and_eq_true, Bool.not_eq_true'] at hf
    cases w with
    | nil =>
      -- behind the start a gap is never kept
      have ht : ∀ b, (Mark.tight b).contains ',' = true := by decide
      rw [hl, List.headD_nil, isTight, ht] at hf
      exact absurd hf.1 (by simp)
    | cons a w =>
      rw [hl, List.headD_cons] at hf
      have hs : Draft.spaces ⟨a :: w, true, p.depthOf c⟩ [c] = true := by
        simpa [Draft.spaces, Draft.isTight, isTight] using hf
      simp [Draft.put, hs, Pen.page, hg]

theorem depthOf_eq (p : Pen) (c : Char) (h : c ∉ Mark.closers) : p.depthOf c = p.watch.depth := by
  simp [Pen.depthOf, h]

/-- A mark that ends no statement goes into the draft, which stays as deep as the watch. -/
theorem mark_page (p : Pen) (w : Text) (c : Char) (hl : p.last = w.headD ',')
    (hs : p.watch.string = none) (hq : c ∉ Mark.quotes)
    (he : c ≠ '{' ∧ c ≠ '}' ∧ (c = ';' → p.watch.depth ≠ 0)) (hf : p.fits c = true) :
    Draft.mark ⟨w, p.gap, p.watch.depth⟩ 1 c =
      ⟨⟨c :: p.page w, false, (p.watch.step c).depth⟩, [], []⟩ ∧
      (p.watch.step c).string = none := by
  have hp := put_page p w c hl hf
  obtain ⟨last, gap, string, depth⟩ := p
  obtain rfl : string = none := hs
  obtain ⟨ho, hc, hz⟩ := he
  by_cases hop : c ∈ Mark.openers
  · have hcl := Mark.openers_not_closers c hop
    rw [depthOf_eq _ c hcl] at hp
    simp only at hp
    simp [Draft.mark, hop, hp, Watch.step, hq]
  by_cases hcl : c ∈ Mark.closers
  · simp only [Pen.depthOf, List.contains_iff_mem.mpr hcl, if_true] at hp
    simp [Draft.mark, hop, hcl, hp, Watch.step, hq]
  · rw [depthOf_eq _ c hcl] at hp
    simp only at hp
    simp only at hz
    have hn : ¬ (c = ';' ∧ depth = 0) := fun h => hz h.1 h.2
    simp [Draft.mark, hop, hcl, ho, hc, hn, hp, Watch.step, hq]

/-- A character outside strings that the pen allows. -/
theorem holds_enter (p : Pen) (w : Text) (c : Char) (hl : p.last = w.headD ',')
    (hs : p.watch.string = none) (hc : p.allows c = true) :
    (Mode.enter ⟨w, p.gap, p.watch.depth⟩ c).2 = [] ∧
      ∃ v, Holds (p.step c) v (Mode.enter ⟨w, p.gap, p.watch.depth⟩ c).1 ∧
        (p.step c).page v = c :: p.page w := by
  by_cases hb : c = ' '
  · subst hb
    have hg : p.gap = false := by simpa [Pen.allows, hs] using hc
    have ht : p.step ' ' = { p with gap := true } := by simp [Pen.step, hs]
    have he : Mode.enter ⟨w, p.gap, p.watch.depth⟩ ' ' =
        (.outside ⟨w, true, p.watch.depth⟩, []) := by
      simp [Mode.enter, Mark.quotes, Mark.spacing, Draft.gapped]
    rw [he, ht]
    exact ⟨rfl, w, .outside { p with gap := true } w hl hs (by simp), by simp [Pen.page, hg]⟩
  · simp only [Pen.allows, hs, beq_iff_eq, hb, if_false, Bool.and_eq_true, Bool.not_eq_true',
      bne_iff_ne, Bool.or_eq_true] at hc
    obtain ⟨⟨⟨⟨hsp, ho⟩, he⟩, hz⟩, hf⟩ := hc
    have hsp' : c ∉ Mark.spacing := by simpa using hsp
    rw [Pen.step_solid p c hb]
    by_cases hq : c ∈ Mark.quotes
    · have hd := depthOf_eq p c (Mark.quotes_not_closers c hq)
      have hp := put_page p w c hl hf
      rw [hd] at hp
      have hw : p.watch.step c = ⟨some (c, false), p.watch.depth⟩ := by
        obtain ⟨last, gap, string, depth⟩ := p
        obtain rfl : string = none := hs
        simp [Watch.step, hq]
      have hm : Mode.enter ⟨w, p.gap, p.watch.depth⟩ c =
          (.string ⟨c :: p.page w, false, p.watch.depth⟩ c false, []) := by
        simp [Mode.enter, hq, hp]
      rw [hm, hw]
      exact ⟨rfl, c :: p.page w, .string ⟨c, false, some (c, false), p.watch.depth⟩ _ c false rfl
        rfl hq, rfl⟩
    · obtain ⟨hm, hn⟩ := mark_page p w c hl hs hq
        ⟨ho, he, fun h => (hz.resolve_left fun hne => hne h)⟩ hf
      by_cases hsl : c = '/'
      · subst hsl
        have hd := (Mode.mark_slash ⟨w, p.gap, p.watch.depth⟩).symm.trans hm
        have hput := (Outcome.mk.inj hd).1
        have hen : Mode.enter ⟨w, p.gap, p.watch.depth⟩ '/' =
            (.slash ⟨'/' :: p.page w, false, (p.watch.step '/').depth⟩
              (Draft.gapped ⟨w, p.gap, p.watch.depth⟩), []) := by
          simp [Mode.enter, Mark.quotes, hput]
        rw [hen]
        exact ⟨rfl, '/' :: p.page w, .slash ⟨'/', false, p.watch.step '/'⟩ _ _ rfl hn rfl rfl, rfl⟩
      · have hen : Mode.enter ⟨w, p.gap, p.watch.depth⟩ c =
            (.outside ⟨c :: p.page w, false, (p.watch.step c).depth⟩, []) := by
          simp [Mode.enter, hq, hsl, hsp', hm, Outcome.gist]
        rw [hen]
        exact ⟨rfl, c :: p.page w, .outside ⟨c, false, p.watch.step c⟩ _ rfl hn fun _ => hsl, rfl⟩

theorem holds_step (p : Pen) (w : Text) (m : Mode) (c : Char) (h : Holds p w m)
    (hc : p.allows c = true) : (m.feed c).2 = [] ∧
      ∃ v, Holds (p.step c) v (m.feed c).1 ∧ (p.step c).page v = c :: p.page w := by
  cases h with
  | outside hl hs hn => exact holds_enter p w c hl hs hc
  | slash e hl hs hg hn =>
    have hf : c = ' ' ∨ p.fits c = true := by
      by_cases hb : c = ' '
      · exact Or.inl hb
      · simp only [Pen.allows, hs, beq_iff_eq, hb, if_false, Bool.and_eq_true] at hc
        exact Or.inr hc.2
    have hm : c ≠ '*' ∧ (c = '/' → p.watch.depth ≠ 0) := by
      rcases hf with rfl | hf
      · simp
      · simpa [Pen.fits, hg, hn, imp_iff_not_or] using hf
    have he : Mode.feed (.slash ⟨w, false, p.watch.depth⟩ e) c =
        Mode.enter ⟨w, p.gap, p.watch.depth⟩ c := by
      have hd : ¬ (c = '/' ∧ p.watch.depth = 0) := fun h => hm.2 h.1 h.2
      simp [Mode.feed, hm.1, hd, hg]
    rw [he]
    exact holds_enter p w c hl hs hc
  | string q escaped hs hg hq =>
    have ht : p.step c = ⟨c, false, p.watch.step c⟩ := by simp [Pen.step, hs]
    have hpage : p.page w = w := by simp [Pen.page, hg]
    rw [ht, hpage]
    obtain ⟨last, gap, string, depth⟩ := p
    obtain rfl : string = some (q, escaped) := hs
    cases escaped with
    | true =>
      exact ⟨rfl, c :: w, .string ⟨c, false, some (q, false), depth⟩ (c :: w) q false rfl rfl hq, rfl⟩
    | false =>
      have hn : c ≠ '\n' := by simpa [Pen.allows] using hc
      by_cases hb : c = '\\'
      · subst hb
        exact ⟨rfl, '\\' :: w, .string ⟨'\\', false, some (q, true), depth⟩ _ q true rfl rfl hq, rfl⟩
      by_cases he : c = q
      · subst he
        have hw : Watch.step ⟨some (c, false), depth⟩ c = ⟨none, depth⟩ := by
          simp [Watch.step, hb]
        have hm : Mode.feed (.string ⟨w, false, depth⟩ c false) c =
            (.outside ⟨c :: w, false, depth⟩, []) := by
          simp [Mode.feed, hb, hn, Draft.write]
        have hl : c ≠ '/' := by
          rintro rfl
          exact absurd hq (by decide)
        rw [hm, hw]
        exact ⟨rfl, c :: w, .outside ⟨c, false, none, depth⟩ _ rfl rfl fun _ => hl, rfl⟩
      · have hw : Watch.step ⟨some (q, false), depth⟩ c = ⟨some (q, false), depth⟩ := by
          simp [Watch.step, hb, he]
        have hm : Mode.feed (.string ⟨w, false, depth⟩ q false) c =
            (.string ⟨c :: w, false, depth⟩ q false, []) := by
          simp [Mode.feed, hb, hn, he, Draft.write]
        rw [hm, hw]
        exact ⟨rfl, c :: w, .string ⟨c, false, some (q, false), depth⟩ _ q false rfl rfl hq, rfl⟩

/-- A neat text is written as it stands and ends no statement. -/
theorem run_neat (p : Pen) (w : Text) (m : Mode) (t : Text) (h : Holds p w m)
    (ht : p.neat t = true) : ∃ v n, Holds (p.steps t) v n ∧
      (p.steps t).page v = t.reverse ++ p.page w ∧ ∀ r, m.run (t ++ r) = n.run r := by
  induction t generalizing p w m with
  | nil => exact ⟨w, m, h, rfl, fun _ => rfl⟩
  | cons c t ih =>
    rw [Pen.neat, Bool.and_eq_true] at ht
    obtain ⟨hs, v, hv, hp⟩ := holds_step p w m c h ht.1
    obtain ⟨u, n, hu, hpu, hr⟩ := ih (p.step c) v (m.feed c).1 hv ht.2
    refine ⟨u, n, hu, ?_, fun r => ?_⟩
    · rw [hp] at hpu
      exact hpu.trans (by simp)
    · rw [List.cons_append, Mode.run, hs]
      exact hr r

/-! ## Fair copies -/

/-- Whether a text is read into a statement as it stands, blanks at its ends aside. -/
structure Fair (t : Text) : Prop where
  neat : Pen.start.neat t = true
  closed : Watch.start.steps t = Watch.start
  ends : t.getLast? ≠ some ' '

instance (t : Text) : Decidable (Fair t) :=
  decidable_of_iff (Pen.start.neat t = true ∧ Watch.start.steps t = Watch.start ∧
    t.getLast? ≠ some ' ') ⟨fun ⟨hn, hc, he⟩ => ⟨hn, hc, he⟩, fun ⟨hn, hc, he⟩ => ⟨hn, hc, he⟩⟩

theorem Fair.steps {t : Text} (h : Fair t) : (Pen.start.steps t).gap = false ∧
    (Pen.start.steps t).watch = Watch.start := by
  refine ⟨?_, (Pen.watch_steps _ _).trans h.closed⟩
  rcases List.eq_nil_or_concat t with rfl | ⟨u, c, rfl⟩
  · rfl
  · rw [List.concat_eq_append] at h ⊢
    rw [Pen.steps_concat]
    rintro rfl
    exact h.ends (by simp)

/-- Reads as the statements, whatever comes behind. -/
def Reads (t : Text) (ss : List Statement) : Prop :=
  ∀ r, Mode.run (.outside Draft.empty) (t ++ r) = ss ++ Mode.run (.outside Draft.empty) r

theorem run_alike {d e : Draft} (h : Alike d e) (r : Text) :
    Mode.run (.outside d) r = Mode.run (.outside e) r := by
  rw [Mode.run_eq_gist _ d r rfl, Mode.run_eq_gist _ e r rfl, gist_of_alike h]

theorem run_blank_draft (d : Draft) (b r : Text) (ht : d.text = []) (hd : d.depth = 0)
    (hb : ∀ c ∈ b, Text.isBlank c = true) :
    Mode.run (.outside d) (b ++ r) = Mode.run (.outside Draft.empty) r := by
  induction b generalizing d with
  | nil =>
    have hw : ∀ c ∈ d.written.reverse, Text.isBlank c = true := by
      simpa [Draft.text, Watch.trim_eq_nil_iff] using ht
    have hc : d.core = [] := List.dropWhile_eq_nil_iff.mpr hw
    exact run_alike ⟨hc, hd, fun hn => absurd hc hn⟩ r
  | cons c b ih =>
    obtain ⟨e, he, het, hed⟩ := Mode.enter_blank d c (hb c (by simp))
    rw [List.cons_append, Mode.run, Mode.feed, he]
    exact ih e (het.trans ht) (hed.trans hd) fun a ha => hb a (by simp [ha])

theorem reads_blanks (b : Text) (hb : ∀ c ∈ b, Text.isBlank c = true) : Reads b [] :=
  fun r => run_blank_draft Draft.empty b r rfl rfl hb

theorem reads_closing : Reads ['}'] [.closing 0] := by
  intro r
  simp [Mode.run, Mode.feed, Mode.enter, Mark.quotes, Mark.spacing, Draft.mark, Mark.openers,
    Mark.closers, Outcome.gist, Draft.declarations, Draft.declaration?, Draft.text_empty,
    Statement.unplaced]

/-- A fair copy in front of a mark that ends it. -/
theorem run_fair (t r : Text) (c : Char) (h : Fair t) (hc : c = '{' ∨ c = ';') :
    Mode.run (.outside Draft.empty) (t ++ c :: r) =
      (Draft.mark ⟨t.reverse, false, 0⟩ 1 c).gist.statements ++
        Mode.run (.outside Draft.empty) r := by
  obtain ⟨v, n, hv, hp, hr⟩ := run_neat Pen.start [] _ t holds_start h.neat
  obtain ⟨hg, hw⟩ := h.steps
  obtain rfl : v = t.reverse := by
    rw [Pen.page, hg] at hp
    exact hp.trans (List.append_nil _)
  have hd : (Pen.start.steps t).watch.depth = 0 := by rw [hw]; rfl
  have hstr : (Pen.start.steps t).watch.string = none := by rw [hw]; rfl
  rw [hr]
  have he : Mode.enter ⟨t.reverse, false, 0⟩ c = (.outside Draft.empty,
      (Draft.mark ⟨t.reverse, false, 0⟩ 1 c).gist.statements) := by
    rcases hc with rfl | rfl <;>
      simp [Mode.enter, Mark.quotes, Mark.spacing, Draft.mark, Mark.openers, Mark.closers]
  cases hv with
  | outside hl hs hn =>
    rw [Mode.run, hg, hd, Mode.feed, he]
  | slash e hl hs hg hn =>
    have hf : Mode.feed (.slash ⟨t.reverse, false, 0⟩ e) c = Mode.enter ⟨t.reverse, false, 0⟩ c := by
      rcases hc with rfl | rfl <;> rfl
    rw [Mode.run, hd, hf, he]
  | string q escaped hs hg hq => simp [hstr] at hs

theorem reads_opening (t : Text) (h : Fair t) (ht : Text.trim t = t) :
    Reads (t ++ ['{']) [.opening t 0] := by
  intro r
  have hd : Draft.text ⟨t.reverse, false, 0⟩ = t := by rw [Draft.text, List.reverse_reverse, ht]
  rw [List.append_assoc, List.singleton_append, run_fair t r '{' h (Or.inl rfl)]
  simp [Draft.mark, Mark.openers, Mark.closers, Outcome.gist, Statement.unplaced, hd]

theorem reads_declaration (t : Text) (h : Fair t) (ht : Text.trim t = t) (hn : t ≠ []) :
    Reads (t ++ [';']) [.declaration ⟨t ++ [';'], 0⟩] := by
  intro r
  have hd : Draft.text ⟨t.reverse, false, 0⟩ = t := by rw [Draft.text, List.reverse_reverse, ht]
  rw [List.append_assoc, List.singleton_append, run_fair t r ';' h (Or.inr rfl)]
  simp [Draft.mark, Mark.openers, Mark.closers, Outcome.gist, Statement.unplaced,
    Draft.declarations, Draft.declaration?, hd, hn]

end NestedCss.Scan
