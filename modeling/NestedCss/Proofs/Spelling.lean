import Mathlib.Data.List.DropRight
import NestedCss.Proofs.Breaks
import NestedCss.Proofs.Drafts
import NestedCss.Proofs.Relexing

/-!
# Spelled statements

The statements of a source, spelled one behind the other, are read back as they are. While a source
is read, what has been written of a statement leads a fresh draft to where the reading stands: each
space and each piece is taken again as it was taken at first, and no slash that stood alone comes
to stand beside another. Blanks at both ends of a statement are gone by then.
-/

set_option autoImplicit false

namespace NestedCss.Text

theorem dropWhile_trim (t : Text) : (trim t).dropWhile isBlank = trim t := by
  rw [List.dropWhile_eq_self_iff]
  intro hl
  have hp : trim t <+: t.dropWhile isBlank := by
    obtain ⟨front, hf⟩ := List.dropWhile_suffix (l := (t.dropWhile isBlank).reverse) isBlank
    refine ⟨front.reverse, ?_⟩
    rw [trim, dropTail, ← List.reverse_append, hf, List.reverse_reverse]
  have hne : t.dropWhile isBlank ≠ [] := List.ne_nil_of_length_pos (hl.trans_le hp.length_le)
  rw [List.IsPrefix.getElem hp hl]
  exact Bool.eq_false_iff.mp (List.head_dropWhile_not isBlank hne ▸ by simp [List.head_eq_getElem])

theorem trim_trim (t : Text) : trim (trim t) = trim t := by
  have h : dropTail isBlank (trim t) = trim t := by
    rw [trim, dropTail, dropTail, List.reverse_reverse, List.dropWhile_idempotent]
  rw [trim, dropWhile_trim, h]

theorem dropTail_concat_solid (t : Text) (c : Char) (h : isBlank c = false) :
    dropTail isBlank (t ++ [c]) = t ++ [c] := by
  rw [dropTail_append_singleton, h]; rfl

end NestedCss.Text

namespace NestedCss.Scan

/-! ## Leading a draft -/

/-- Whether a text leads a fresh draft to another draft, whatever comes behind it. -/
def Leads (u : Text) (e : Draft) : Prop :=
  ∀ r, Apart e.depth u r → gist Draft.empty (u ++ r) = gist e r

theorem leads_nil : Leads [] Draft.empty := fun _ _ => rfl

theorem leads_append (u p : Text) (e : Draft) (x : Lexeme) (hu : Leads u e)
    (ha : ∀ r, Apart e.depth u (p ++ r))
    (hx : ∀ r, Apart (e.step 1 x).draft.depth (u ++ p) r → next? e.depth (p ++ r) = some (x, r))
    (hs : (e.step 1 x).gist = ⟨[], []⟩) : Leads (u ++ p) (e.step 1 x).draft := by
  intro r hr
  rw [List.append_assoc, hu (p ++ r) (ha r), gist_next_silent e _ r x (hx r hr) hs]

theorem leads_space (u : Text) (n : Nat) (h : Leads u ⟨u.reverse, false, n⟩) :
    Leads (u ++ [' ']) ⟨u.reverse, true, n⟩ := by
  apply leads_append u [' '] ⟨u.reverse, false, n⟩ (.blank ' ') h
  · intro r _
    simp [Separate]
  · intro r _
    exact next?_blank n ' ' r (by decide)
  · rfl

/-- A lexeme that goes into a draft of depth `n` as the piece `p`. The piece is put at depth `m` and
leaves depth `k` behind. -/
structure Writes (x : Lexeme) (p : Text) (n m k : Nat) : Prop where
  piece_ne_nil : p ≠ []
  step_eq : ∀ e : Draft, e.depth = n →
    e.step 1 x = ⟨{ ({ e with depth := m }.put p) with depth := k }, [], []⟩
  next_eq : ∀ u r, Apart k (u ++ p) r → next? n (p ++ r) = some (x, r)

theorem apart_piece (n : Nat) (u p r s : Text) (hp : p ≠ []) (h : Apart n u (p ++ r)) :
    Apart n u (p ++ s) := by
  intro hl
  have hs := h hl
  cases p with
  | nil => exact absurd rfl hp
  | cons c p => exact hs

theorem put_spaced (e : Draft) (p : Text) (h : e.spaces p = true) :
    e.put p = ⟨p.reverse ++ ' ' :: e.written, false, e.depth⟩ := by
  rw [Draft.put, if_pos h]

theorem put_joined (e : Draft) (p : Text) (h : e.spaces p = false) :
    e.put p = ⟨p.reverse ++ e.written, false, e.depth⟩ := by
  rw [Draft.put, h]; rfl

variable {x : Lexeme} {p : Text} {n m k : Nat}

theorem leads_joined (u : Text) (hw : Writes x p n m k) (h : Leads u ⟨u.reverse, false, n⟩)
    (ha : ∀ r, Apart n u (p ++ r)) : Leads (u ++ p) ⟨(u ++ p).reverse, false, k⟩ := by
  have hj := put_joined ⟨u.reverse, false, m⟩ p rfl
  have hs := hw.step_eq ⟨u.reverse, false, n⟩ rfl
  simp only [hj] at hs
  have hl := leads_append u p ⟨u.reverse, false, n⟩ x h ha
    (fun r hr => hw.next_eq u r (by rwa [hs] at hr)) (by rw [hs]; rfl)
  rwa [hs, ← List.reverse_append] at hl

theorem leads_spaced (u : Text) (hw : Writes x p n m k) (h : Leads u ⟨u.reverse, false, n⟩)
    (hp : Draft.spaces ⟨u.reverse, true, m⟩ p = true) :
    Leads (u ++ [' '] ++ p) ⟨(u ++ [' '] ++ p).reverse, false, k⟩ := by
  have hj := put_spaced ⟨u.reverse, true, m⟩ p hp
  have hs := hw.step_eq ⟨u.reverse, true, n⟩ rfl
  simp only [hj] at hs
  have hl := leads_append (u ++ [' ']) p ⟨u.reverse, true, n⟩ x (leads_space u n h)
    (fun r => apart_concat n u (p ++ r) ' ' (by decide))
    (fun r hr => hw.next_eq (u ++ [' ']) r (by rwa [hs] at hr)) (by rw [hs]; rfl)
  rw [hs] at hl
  simpa using hl

/-! ## Pieces -/

theorem writes_mark (n : Nat) (c : Char) (hq : c ∉ Mark.quotes) (hb : c ∉ Mark.spacing)
    (he : c ≠ '{' ∧ c ≠ '}' ∧ (c = ';' → n ≠ 0)) :
    ∃ m, Writes (.mark c) [c] n m ((Lexeme.mark c).depthAfter n) ∧
      (Text.isBlank c = true → (Lexeme.mark c).depthAfter n = n) := by
  obtain ⟨ho, hc, hs⟩ := he
  have hn : (c = '/' → (Lexeme.mark c).depthAfter n = n) → ∀ u r,
      Apart ((Lexeme.mark c).depthAfter n) (u ++ [c]) r →
      next? n ([c] ++ r) = some (.mark c, r) := by
    intro hk u r hr
    refine (next?_mark_iff n _ r c).mpr ⟨rfl, hq, hb, fun h => ?_⟩
    have := hr (by simp [h])
    rwa [hk h] at this
  by_cases hl : c ∈ Mark.openers
  · refine ⟨n, ⟨by simp, fun e h => ?_, hn ?_⟩, fun hk => ?_⟩
    · simp [Draft.step, Draft.mark, Lexeme.depthAfter, hl, ← h]
    · rintro rfl
      exact absurd hl (by decide)
    · exact Bool.noConfusion (hk.symm.trans (Mark.openers_solid c hl))
  by_cases hr : c ∈ Mark.closers
  · refine ⟨n - 1, ⟨by simp, fun e h => ?_, hn ?_⟩, fun hk => ?_⟩
    · simp [Draft.step, Draft.mark, Lexeme.depthAfter, hl, hr, ← h, Draft.put]
    · rintro rfl
      exact absurd hr (by decide)
    · exact Bool.noConfusion (hk.symm.trans (Mark.closers_solid c hr))
  · have hk : (Lexeme.mark c).depthAfter n = n := by
      simp [Lexeme.depthAfter, hl, hr, ho, hc]
    refine ⟨n, ⟨by simp, fun e h => ?_, hn fun _ => hk⟩, fun _ => hk⟩
    have hsd : ¬ (c = ';' ∧ n = 0) := fun h => hs h.1 h.2
    subst h
    simp [Draft.step, Draft.mark, hk, hl, hr, ho, hc, hsd, Draft.put]

theorem writes_quotation (q : Char) (body t r : Text) (n : Nat) (hq : q ∈ Mark.quotes)
    (h : readString q t = (body, .closed, r)) :
    Writes (.quotation q body .closed) (q :: body ++ [q]) n n n := by
  refine ⟨by simp, fun e he => ?_, fun u s _ => ?_⟩
  · subst he
    rfl
  · have hs := (readString_closed q t body r hq h).2 s
    have hc := next?_quote n q (body ++ q :: s) hq
    rw [hs] at hc
    simpa using hc

/-! ## The printed draft -/

/-- A text at a depth that leads there, with or without the blanks at its end. -/
structure Printed (u : Text) (n : Nat) : Prop where
  leads : Leads u ⟨u.reverse, false, n⟩
  trim_leads : Leads (Text.dropTail Text.isBlank u)
    ⟨(Text.dropTail Text.isBlank u).reverse, false, n⟩
  depth_eq : u = [] → n = 0

theorem printed_nil : Printed [] 0 := ⟨leads_nil, leads_nil, fun _ => rfl⟩

theorem printed_solid (u v : Text) (c : Char) (k : Nat) (hc : Text.isBlank c = false)
    (hl : Leads (u ++ (v ++ [c])) ⟨(u ++ (v ++ [c])).reverse, false, k⟩) :
    Printed (u ++ (v ++ [c])) k := by
  refine ⟨hl, ?_, by simp⟩
  rw [← List.append_assoc] at hl ⊢
  rw [Text.dropTail_concat_solid _ c hc]
  exact hl

theorem printed_blank (u g : Text) (k : Nat) (h : Printed u k)
    (hg : ∀ c ∈ g, Text.isBlank c = true) (hl : Leads (u ++ g) ⟨(u ++ g).reverse, false, k⟩) :
    Printed (u ++ g) k := by
  refine ⟨hl, ?_, fun hn => h.depth_eq (List.append_eq_nil_iff.mp hn).1⟩
  rw [Text.dropTail_append_blank u g hg]
  exact h.trim_leads

theorem isTight_comment (d : Draft) (b : Char) (h : b = '/' ∨ b = '*') : d.isTight b = false := by
  by_cases hd : d.depth > 0 <;> rcases h with rfl | rfl <;> simp [Draft.isTight, hd] <;> decide

/-- A piece that takes no space though there is a gap has a tight neighbour, so that no comment
begins at its border. -/
theorem apart_of_tight (d : Draft) (n : Nat) (b : Char) (v : Text) (hg : d.gap = true)
    (hs : d.spaces (b :: v) = false) : Apart n d.core (b :: v) := by
  intro hl
  have hc : d.core ≠ [] := by
    intro hc
    simp [hc] at hl
  have hw : d.written.head? = some '/' := (Draft.written_head d hc).trans hl
  have hb : d.isTight b = true := by
    rw [Draft.spaces_eq, hw, hg] at hs
    simpa [isTight_comment d '/' (Or.inl rfl)] using hs
  constructor
  · intro h
    rw [List.head?_cons, Option.some.injEq] at h
    exact Bool.noConfusion (hb.symm.trans (isTight_comment d b (Or.inr h)))
  · intro _ h
    rw [List.head?_cons, Option.some.injEq] at h
    exact Bool.noConfusion (hb.symm.trans (isTight_comment d b (Or.inl h)))

/-- A piece is blank altogether, or blank at neither end. -/
def Firm (p : Text) : Prop :=
  (∀ c ∈ p, Text.isBlank c = true) ∨
  p.dropWhile Text.isBlank = p ∧ ∃ v c, p = v ++ [c] ∧ Text.isBlank c = false

theorem core_put_blank (d : Draft) (p : Text) (h : ∀ c ∈ p, Text.isBlank c = true) :
    ∃ g, (d.put p).core = d.core ++ g ∧ ∀ c ∈ g, Text.isBlank c = true := by
  by_cases hc : d.core = []
  · rw [Draft.core_put_of_core_nil d p hc, hc]
    exact ⟨_, rfl, fun c hm => h c (List.dropWhile_suffix _ |>.mem hm)⟩
  · rw [Draft.core_put_of_core_ne_nil d p hc, List.append_assoc]
    refine ⟨_, rfl, fun c hm => ?_⟩
    rcases List.mem_append.mp hm with hg | hm
    · exact Draft.glue_blank d p c hg
    · exact h c hm

theorem core_put_solid (d : Draft) (v : Text) (c : Char)
    (h : (v ++ [c]).dropWhile Text.isBlank = v ++ [c]) :
    ∃ g, (d.put (v ++ [c])).core = d.core ++ (g ++ [c]) := by
  by_cases hc : d.core = []
  · rw [Draft.core_put_of_core_nil d _ hc, hc, h]
    exact ⟨v, rfl⟩
  · rw [Draft.core_put_of_core_ne_nil d _ hc]
    exact ⟨d.glue (v ++ [c]) ++ v, by simp⟩

/-- The core goes on leading where a piece is put. -/
theorem leads_put (d : Draft) (r : Text) (h : Printed d.core d.depth) (hw : Writes x p d.depth m k)
    (ha : d.gap = false → Apart d.depth d.core (p ++ r))
    (hp : d.core = [] → p.dropWhile Text.isBlank = p) :
    Leads (Draft.put { d with depth := m } p).core
      ⟨(Draft.put { d with depth := m } p).core.reverse, false, k⟩ := by
  by_cases hc : d.core = []
  · rw [Draft.core_put_of_core_nil { d with depth := m } p hc, hp hc]
    exact leads_joined [] hw (h.depth_eq hc ▸ leads_nil) (fun _ => apart_nil _ _)
  · rw [Draft.core_put_of_core_ne_nil { d with depth := m } p hc, Draft.glue]
    show Leads (d.core ++ _ ++ p) ⟨(d.core ++ _ ++ p).reverse, false, k⟩
    by_cases hs : Draft.spaces { d with depth := m } p = true
    · have hl := Draft.written_head { d with depth := m } hc
      rw [if_pos hs]
      rw [Draft.spaces_eq, hl] at hs
      apply leads_spaced d.core hw h.leads
      rw [Draft.spaces_eq, List.head?_reverse]
      exact (Bool.and_eq_true _ _ ▸ hs).2
    · have hn : ∀ s, Apart d.depth d.core (p ++ s) := by
        intro s
        obtain ⟨b, v, hv⟩ := List.exists_cons_of_ne_nil hw.piece_ne_nil
        apply apart_piece d.depth d.core p r s hw.piece_ne_nil
        by_cases hg : d.gap = false
        · exact ha hg
        · have ht := apart_of_tight { d with depth := m } d.depth b v (by simpa using hg)
            (by rw [← hv]; simpa using hs)
          apply apart_piece d.depth d.core p [] r hw.piece_ne_nil
          rw [List.append_nil, hv]
          exact ht
      rw [if_neg hs, List.append_nil]
      exact leads_joined d.core hw h.leads hn

theorem printed_put (d : Draft) (r : Text) (h : Printed d.core d.depth)
    (hw : Writes x p d.depth m k) (ha : d.gap = false → Apart d.depth d.core (p ++ r))
    (hp : Firm p) (hk : (∀ c ∈ p, Text.isBlank c = true) → k = d.depth) :
    Printed (Draft.put { d with depth := m } p).core k := by
  rcases hp with hb | ⟨hv, v, c, rfl, hb⟩
  · have hd := hk hb
    by_cases hc : d.core = []
    · have hn : (Draft.put { d with depth := m } p).core = [] := by
        rw [Draft.core_put_of_core_nil { d with depth := m } p hc]
        exact List.dropWhile_eq_nil_iff.mpr hb
      rw [hn, hd, h.depth_eq hc]
      exact printed_nil
    · have hl := leads_put d r h hw ha fun hn => absurd hn hc
      obtain ⟨g, hg, hgb⟩ := core_put_blank { d with depth := m } p hb
      rw [hg] at hl ⊢
      exact printed_blank d.core g k (hd ▸ h) hgb hl
  · have hl := leads_put d r h hw ha fun _ => hv
    obtain ⟨g, hg⟩ := core_put_solid { d with depth := m } v c hv
    rw [hg] at hl ⊢
    exact printed_solid d.core g c k hb hl

/-! ## Spelling out and reading back -/

def spell (ts : List Statement) : Text := ts.flatMap Statement.spelled

/-- Whether statements, spelled out in front of any text, are read back as they are. -/
def ReadsBack (ts : List Statement) : Prop :=
  ∀ r, gist Draft.empty (spell ts ++ r) = Gist.append ⟨ts, []⟩ (gist Draft.empty r)

theorem readsBack_nil : ReadsBack [] := fun _ => rfl

theorem readsBack_append (ss ts : List Statement) (hs : ReadsBack ss) (ht : ReadsBack ts) :
    ReadsBack (ss ++ ts) := by
  intro r
  have h : spell (ss ++ ts) ++ r = spell ss ++ (spell ts ++ r) := by simp [spell]
  rw [h, hs, ht]
  simp [Gist.append]

theorem readsBack_closing : ReadsBack [.closing 0] := by
  intro r
  have hx : next? 0 ('}' :: r) = some (.mark '}', r) := by
    rw [next?_mark_iff]
    simp [Mark.quotes, Mark.spacing]
  exact gist_next Draft.empty ('}' :: r) r (.mark '}') hx

/-- A brace or a semicolon behind the text of a draft ends the statement again. -/
theorem gist_text_mark (d : Draft) (c : Char) (r : Text) (h : Printed d.core 0)
    (hc : c = '{' ∨ c = ';') :
    gist Draft.empty (d.text ++ c :: r) =
      (Draft.mark ⟨d.text.reverse, false, 0⟩ 1 c).gist.append (gist Draft.empty r) := by
  have hx : next? 0 (c :: r) = some (.mark c, r) := by
    rw [next?_mark_iff]
    rcases hc with rfl | rfl <;> simp [Mark.quotes, Mark.spacing]
  have he : (Draft.mark ⟨d.text.reverse, false, 0⟩ 1 c).draft = Draft.empty := by
    rcases hc with rfl | rfl <;> rfl
  have ha : Apart 0 d.text (c :: r) := by
    intro _
    rcases hc with rfl | rfl <;> simp [Separate]
  have hl : gist Draft.empty (d.text ++ c :: r) = gist ⟨d.text.reverse, false, 0⟩ (c :: r) :=
    h.trim_leads (c :: r) ha
  rw [hl, gist_next _ _ r (.mark c) hx]
  show (Draft.mark _ 1 c).gist.append (gist (Draft.mark _ 1 c).draft r) = _
  rw [he]

theorem text_of_text (d : Draft) : Draft.text ⟨d.text.reverse, false, 0⟩ = d.text := by
  rw [Draft.text, List.reverse_reverse]
  exact Text.trim_trim _

theorem readsBack_opening (d : Draft) (h : Printed d.core 0) : ReadsBack [.opening d.text 0] := by
  intro r
  have hg := gist_text_mark d '{' r h (Or.inl rfl)
  simpa [spell, Statement.spelled, Draft.mark, Mark.openers, Mark.closers, Outcome.gist,
    Draft.bracketFaults, text_of_text, Statement.unplaced] using hg

theorem readsBack_declarations (d : Draft) (line : Int) (h : Printed d.core 0) :
    ReadsBack ((d.declarations line).map Statement.unplaced) := by
  by_cases ht : d.text = []
  · simp only [Draft.declarations, Draft.declaration?, if_pos ht]
    exact readsBack_nil
  · intro r
    have hg := gist_text_mark d ';' r h (Or.inr rfl)
    simpa [spell, Statement.spelled, Draft.mark, Mark.openers, Mark.closers, Outcome.gist,
      Draft.declarations, Draft.declaration?, text_of_text, ht, Statement.unplaced] using hg

/-! ## Reading along -/

/-- What holds of a draft while a text is read: the text written leads to the draft, and no comment
begins between it and the rest. -/
structure Tracks (d : Draft) (t : Text) : Prop where
  printed : Printed d.core d.depth
  apart : d.gap = false → Apart d.depth d.core t

/-- The faults that leave nothing unreadable behind. -/
def Mild (c : Fault.Cause) : Prop := c = .commentOpen ∨ c = .declarationOpen

theorem tracks_empty (t : Text) : Tracks Draft.empty t := ⟨printed_nil, fun _ => apart_nil 0 t⟩

theorem tracks_gap (d : Draft) (t r : Text) (h : Tracks d t) : Tracks { d with gap := true } r :=
  ⟨h.printed, fun hg => absurd hg (by simp)⟩

theorem depth_of_mild (d : Draft) (line : Int)
    (h : ∀ f ∈ d.bracketFaults line, Mild f.cause) : d.depth = 0 := by
  by_contra hd
  have hm : Mild .bracketOpen := h ⟨.bracketOpen, some line⟩ (by
    simp [Draft.bracketFaults, Nat.pos_of_ne_zero hd])
  simp [Mild] at hm

theorem apart_suffix (n : Nat) (u v r : Text) (h : u <:+ v) (ha : Apart n v r) : Apart n u r := by
  intro hl
  obtain ⟨w, rfl⟩ := h
  apply ha
  rw [List.getLast?_append, hl]
  rfl

theorem tracks_put (d : Draft) (r : Text) (h : Tracks d (p ++ r)) (hw : Writes x p d.depth m k)
    (hp : Firm p) (hk : (∀ c ∈ p, Text.isBlank c = true) → k = d.depth)
    (ha : ∀ u, Apart k (u ++ p) r) :
    Tracks { Draft.put { d with depth := m } p with depth := k } r := by
  refine ⟨printed_put d r h.printed hw h.apart hp hk, fun _ => ?_⟩
  apply apart_suffix k _ _ r (List.dropWhile_suffix Text.isBlank)
  show Apart k (Draft.put { d with depth := m } p).written.reverse r
  rw [Draft.written_put]
  exact ha _

theorem step_mark (d : Draft) (t r : Text) (c : Char) (h : Tracks d t)
    (hx : next? d.depth t = some (.mark c, r))
    (hf : ∀ f ∈ (d.mark 1 c).faults, Mild f.cause) :
    ReadsBack ((d.mark 1 c).statements.map Statement.unplaced) ∧ Tracks (d.mark 1 c).draft r := by
  obtain ⟨rfl, hq, hb, hs⟩ := (next?_mark_iff d.depth t r c).mp hx
  by_cases ho : c = '{'
  · subst ho
    have hd := depth_of_mild d 1 hf
    exact ⟨readsBack_opening d (hd ▸ h.printed), tracks_empty r⟩
  by_cases hc : c = '}'
  · subst hc
    have hd := depth_of_mild d 1 hf
    have hl := readsBack_declarations d 1 (hd ▸ h.printed)
    have ha := readsBack_append _ _ hl readsBack_closing
    refine ⟨?_, tracks_empty r⟩
    simpa [Draft.mark, Mark.openers, Mark.closers, Statement.unplaced] using ha
  by_cases hz : c = ';' ∧ d.depth = 0
  · obtain ⟨rfl, hd⟩ := hz
    have hm : d.mark 1 ';' = ⟨Draft.empty, [], d.declarations 1⟩ := by
      simp [Draft.mark, Mark.openers, Mark.closers, hd]
    rw [hm]
    exact ⟨readsBack_declarations d 1 (hd ▸ h.printed), tracks_empty r⟩
  · obtain ⟨m, hw, hk⟩ := writes_mark d.depth c hq hb ⟨ho, hc, fun h₁ h₂ => hz ⟨h₁, h₂⟩⟩
    have hm := hw.step_eq d rfl
    simp only [Draft.step] at hm
    rw [hm]
    refine ⟨readsBack_nil, tracks_put d r h hw ?_ (fun hn => hk (hn c (by simp))) ?_⟩
    · cases hn : Text.isBlank c with
      | true => exact Or.inl (by simpa using hn)
      | false => exact Or.inr ⟨by simp [hn], [], c, rfl, hn⟩
    · intro u hl
      rw [List.getLast?_concat, Option.some.injEq] at hl
      have hd : (Lexeme.mark c).depthAfter d.depth = d.depth := by
        rw [hl]
        rfl
      rw [hd]
      exact hs hl

theorem step_quotation (d : Draft) (t r body : Text) (q : Char) (ending : StringEnd)
    (h : Tracks d t) (hx : next? d.depth t = some (.quotation q body ending, r))
    (hf : ∀ f ∈ Draft.stringFaults 1 ending, Mild f.cause) :
    Tracks (d.put (Draft.stringText q body ending)) r := by
  obtain ⟨hq, s, rfl, hs⟩ := next?_quotation d.depth t r body q ending hx
  have hn : q ≠ '/' := by
    rintro rfl
    exact absurd hq (by decide)
  have hb := Mark.quotes_solid q hq
  cases ending with
  | broken => exact absurd (hf _ (List.mem_singleton_self _)) (by simp [Mild])
  | cut => exact absurd (hf _ (List.mem_singleton_self _)) (by simp [Mild])
  | closed =>
    have ht : q :: s = (q :: body ++ [q]) ++ r := by
      rw [(readString_closed q s body r hq hs).1]
      simp
    have hp : Firm (q :: body ++ [q]) := Or.inr ⟨by simp [hb], q :: body, q, rfl, hb⟩
    rw [ht] at h
    apply tracks_put d r h (writes_quotation q body s r d.depth hq hs) hp fun _ => rfl
    intro u
    rw [← List.append_assoc]
    exact apart_concat d.depth _ r q hn

/-- One lexeme keeps on the track, and the statements that it ends are read back. -/
theorem step_reads (d : Draft) (t r : Text) (x : Lexeme) (h : Tracks d t)
    (hx : next? d.depth t = some (x, r)) (hf : ∀ f ∈ (d.step 1 x).faults, Mild f.cause) :
    ReadsBack ((d.step 1 x).statements.map Statement.unplaced) ∧ Tracks (d.step 1 x).draft r := by
  cases x with
  | blank c => exact ⟨readsBack_nil, tracks_gap d t r h⟩
  | blockComment body closed => exact ⟨readsBack_nil, tracks_gap d t r h⟩
  | lineComment body => exact ⟨readsBack_nil, tracks_gap d t r h⟩
  | mark c => exact step_mark d t r c h hx hf
  | quotation q body ending => exact ⟨readsBack_nil, step_quotation d t r body q ending h hx hf⟩

theorem stop_reads (d : Draft) (h : Tracks d []) (hf : ∀ f ∈ (d.stop 1).faults, Mild f.cause) :
    ReadsBack ((d.stop 1).statements.map Statement.unplaced) := by
  have hd := depth_of_mild d 1 fun f hm => hf f (List.mem_append_left _ hm)
  exact readsBack_declarations d 1 (hd ▸ h.printed)

/-- What a text comes to in a draft is read back, from any point of the reading on. -/
theorem gist_readsBack (n : Nat) (d : Draft) (t : Text) (hn : d.depth = n) (h : Tracks d t)
    (hf : ∀ c ∈ (gist d t).causes, Mild c) : ReadsBack (gist d t).statements := by
  induction n, t using lexemes.induct generalizing d with
  | case1 n t hx =>
    obtain rfl := (next?_eq_none_iff n t).mp hx
    rw [gist_nil] at hf ⊢
    exact stop_reads d h fun f hm => hf f.cause (List.mem_map_of_mem hm)
  | case2 n t x r hx ih =>
    subst hn
    rw [gist_next d t r x hx] at hf ⊢
    have hs := step_reads d t r x h hx fun f hm =>
      hf f.cause (List.mem_append_left _ (List.mem_map_of_mem hm))
    have hr := ih (d.step 1 x).draft (Draft.depth_step d 1 x) hs.2 fun c hm =>
      hf c (List.mem_append_right _ hm)
    exact readsBack_append _ _ hs.1 hr

/-! ## The spelled source -/

theorem mem_put (d : Draft) (p : Text) (c : Char) (hc : c ∈ (d.put p).written) :
    c ∈ d.written ∨ c ∈ p ∨ c = ' ' := by
  simp only [Draft.put, List.mem_append, List.mem_reverse] at hc
  rcases hc with hc | hc
  · exact Or.inr (Or.inl hc)
  · split at hc
    · rcases List.mem_cons.mp hc with rfl | hc
      · exact Or.inr (Or.inr rfl)
      · exact Or.inl hc
    · exact Or.inl hc

theorem mem_text (d : Draft) (c : Char) (hc : c ∈ d.text) : c ∈ d.written := by
  have h : d.text <+: d.core := by
    rw [Draft.text_eq_core]
    exact List.rdropWhile_prefix _ _
  have hm := (List.dropWhile_suffix Text.isBlank).mem (h.mem hc)
  simpa using hm

theorem plain_put (d : Draft) (p : Text) (hd : ∀ c ∈ d.written, Text.Plain c)
    (hp : ∀ c ∈ p, Text.Plain c) : ∀ c ∈ (d.put p).written, Text.Plain c := by
  intro c hc
  rcases mem_put d p c hc with hc | hc | rfl
  · exact hd c hc
  · exact hp c hc
  · simp [Text.Plain]

theorem plain_declarations (d : Draft) (line : Int) (hd : ∀ c ∈ d.written, Text.Plain c) :
    ∀ c ∈ spell (d.declarations line), Text.Plain c := by
  intro c hc
  simp only [spell, Draft.declarations, Draft.declaration?] at hc
  split at hc
  · simp at hc
  · simp only [Option.toList_some, List.map_cons, List.map_nil, List.flatMap_singleton,
      Statement.spelled, List.mem_append, List.mem_singleton] at hc
    rcases hc with hc | rfl
    · exact hd c (mem_text d c hc)
    · simp [Text.Plain]

theorem plain_stringText (q : Char) (body : Text) (ending : StringEnd)
    (h : ∀ c ∈ (Lexeme.quotation q body ending).source, Text.Plain c) :
    ∀ c ∈ Draft.stringText q body ending, Text.Plain c := by
  intro c hc
  apply h
  cases ending with
  | closed => exact hc
  | broken => exact List.mem_append_left _ hc
  | cut => exact List.mem_append_left _ hc

theorem plain_step (d : Draft) (line : Int) (x : Lexeme) (hd : ∀ c ∈ d.written, Text.Plain c)
    (hx : ∀ c ∈ x.source, Text.Plain c) :
    (∀ c ∈ (d.step line x).draft.written, Text.Plain c) ∧
      ∀ c ∈ spell (d.step line x).statements, Text.Plain c := by
  cases x with
  | blank c => exact ⟨hd, by simp [Draft.step, spell]⟩
  | blockComment body closed => exact ⟨hd, by simp [Draft.step, spell]⟩
  | lineComment body => exact ⟨hd, by simp [Draft.step, spell]⟩
  | quotation q body ending =>
    exact ⟨plain_put d _ hd (plain_stringText q body ending hx), by simp [Draft.step, spell]⟩
  | mark c =>
    have hc : ∀ e ∈ [c], Text.Plain e := hx
    simp only [Draft.step, Draft.mark]
    split_ifs
    · exact ⟨plain_put d [c] hd hc, by simp [spell]⟩
    · exact ⟨plain_put { d with depth := d.depth - 1 } [c] hd hc, by simp [spell]⟩
    · refine ⟨by simp [Draft.empty], fun a ha => ?_⟩
      simp only [spell, List.flatMap_singleton, Statement.spelled, List.mem_append,
        List.mem_singleton] at ha
      rcases ha with ha | rfl
      · exact hd a (mem_text d a ha)
      · simp [Text.Plain]
    · refine ⟨by simp [Draft.empty], fun a ha => ?_⟩
      simp only [spell, List.flatMap_append, List.mem_append, List.flatMap_singleton,
        Statement.spelled, List.mem_singleton] at ha
      rcases ha with ha | rfl
      · exact plain_declarations d line hd a ha
      · simp [Text.Plain]
    · exact ⟨by simp [Draft.empty], plain_declarations d line hd⟩
    · exact ⟨plain_put d [c] hd hc, by simp [spell]⟩

theorem plain_read (line : Int) (d : Draft) (xs : List Lexeme) (hd : ∀ c ∈ d.written, Text.Plain c)
    (hx : ∀ c ∈ xs.flatMap Lexeme.source, Text.Plain c) :
    ∀ c ∈ spell (read line d xs).statements, Text.Plain c := by
  induction xs generalizing line d with
  | nil => exact plain_declarations d line hd
  | cons x xs ih =>
    rw [List.flatMap_cons] at hx
    have hs := plain_step d line x hd fun c hc => hx c (List.mem_append_left _ hc)
    have hr := ih (line + x.breaks) _ hs.1 fun c hc => hx c (List.mem_append_right _ hc)
    intro c hc
    simp only [read, Reading.prepend, spell, List.flatMap_append, List.mem_append] at hc
    rcases hc with hc | hc
    · exact hs.2 c hc
    · exact hr c hc

theorem spell_unplaced (ts : List Statement) : spell (ts.map Statement.unplaced) = spell ts := by
  rw [spell, spell, List.flatMap_map]
  congr 1
  funext s
  cases s <;> rfl

/-- The statements of a source that is mildly faulty at most, spelled one behind the other, are read
back as the same statements and without a fault. -/
theorem spelled_reading_is_stable (source : Text)
    (h : ∀ f ∈ (readSource source).faults, f.cause = .commentOpen ∨ f.cause = .declarationOpen) :
    (readSource (spell (readSource source).statements)).faults = [] ∧
      (readSource (spell (readSource source).statements)).statements.map Statement.unplaced =
        (readSource source).statements.map Statement.unplaced := by
  have hp : ∀ c ∈ spell (readSource source).statements, Text.Plain c := by
    apply plain_read 1 Draft.empty _ (by simp [Draft.empty])
    rw [lexemes_source]
    exact Text.plain_unifyBreaks source
  have hb := gist_readsBack 0 Draft.empty (Text.unifyBreaks source) rfl (tracks_empty _) (by
    intro c hc
    obtain ⟨f, hf, rfl⟩ := List.mem_map.mp hc
    exact h f hf) []
  have hg : (readSource (spell (readSource source).statements)).gist =
      ⟨(readSource source).statements.map Statement.unplaced, []⟩ := by
    have he : gist Draft.empty [] = ⟨[], []⟩ := gist_nil _
    rw [gist_source, Text.unifyBreaks_plain _ hp, ← spell_unplaced, ← List.append_nil (spell _)]
    rw [he] at hb
    exact hb.trans (by simp [Gist.append, ← gist_source, Reading.gist])
  exact ⟨List.map_eq_nil_iff.mp (congrArg Gist.causes hg), congrArg Gist.statements hg⟩

theorem spelled_reading_of_open_declaration :
    (readSource "a > b\x7bc : d /* e".toList).faults ≠ [] ∧
      (readSource (spell (readSource "a > b\x7bc : d /* e".toList).statements)).faults = [] := by
  constructor
  · decide +kernel
  · exact (spelled_reading_is_stable "a > b\x7bc : d /* e".toList (by decide +kernel)).1

end NestedCss.Scan
