import NestedCss.Proofs.Containment
import NestedCss.Proofs.FairSources

/-!
# Joints

Pieces of a fair copy are fair copies, and fair copies joined by commas are one. Where a segment is
attached to a path, two characters meet that have not met before: a space that is put between them
or comes with the segment has to stand beside no tight mark, and no comment may begin. Then what is
composed of fair copies is a fair copy.
-/

set_option autoImplicit false

namespace NestedCss.Path

open Scan

/-- Whether a text may come behind a character as it stands. -/
def follows (a : Char) : Text → Bool
  | [] => true
  | c :: _ => if c == ' ' then !isTight 0 a else !(a == '/' && (c == '/' || c == '*'))

/-- Whether a segment that is attached to a path meets it without a change to either. -/
def flush (path segment : Text) : Bool :=
  let last := path.getLast?.getD ','
  match segment with
  | '&' :: r => follows last r
  | _ =>
    if endsInWord path && startsCompound segment then segment.head? != some ':'
    else follows last segment

/-- Whether all the lists of a stack meet flush, from a path on. -/
def flushes (path : Text) : List Text → Bool
  | [] => true
  | t :: ts =>
    (entries path).all (fun p => (entries t).all (flush p)) && flushes (attachList path t) ts

end NestedCss.Path

namespace NestedCss.Scan

open NestedCss.Path

theorem isTight_comma (n : Nat) : isTight n ',' = true := by
  by_cases h : n > 0 <;> simp [isTight, h, Mark.tight]

theorem isTight_of_not_mem (n : Nat) (c : Char) (h : c ∉ Mark.tight false) :
    isTight n c = false := by
  by_cases hn : n > 0
  · simpa [isTight, hn] using fun hm => h (Mark.tight_nested c hm)
  · simpa [isTight, hn] using h

/-! ## Pens that write alike -/

namespace Pen

/-- Whether a gap may follow the character in any place, and no comment begins with it. -/
def Quiet (c : Char) : Prop := c ≠ '/' ∧ c ∉ Mark.tight false

/-- Whether two pens go on alike. -/
structure Like (p q : Pen) : Prop where
  gap_eq : p.gap = q.gap
  watch_eq : p.watch = q.watch
  last_eq : p.last = q.last ∨ Quiet p.last ∧ Quiet q.last

theorem Like.refl (p : Pen) : Like p p := ⟨rfl, rfl, Or.inl rfl⟩

variable {p q : Pen}

theorem fits_quiet (h : Quiet p.last) (c : Char) :
    p.fits c = (!p.gap || !isTight (p.depthOf c) c) := by
  have ht := isTight_of_not_mem (p.depthOf c) p.last h.2
  cases hg : p.gap <;> simp [fits, hg, ht, h.1]

theorem Like.allows_eq (h : Like p q) (c : Char) : p.allows c = q.allows c := by
  have hd : p.depthOf c = q.depthOf c := by rw [depthOf, depthOf, h.watch_eq]
  have hf : p.fits c = q.fits c := by
    rcases h.last_eq with hl | ⟨hp, hq⟩
    · rw [fits, fits, h.gap_eq, h.watch_eq, hl, hd]
    · rw [fits_quiet hp, fits_quiet hq, h.gap_eq, hd]
  rw [allows, allows, h.watch_eq, h.gap_eq, hf]

theorem Like.step (h : Like p q) (c : Char) : Like (p.step c) (q.step c) := by
  rw [Pen.step, Pen.step, h.watch_eq]
  split
  · exact ⟨rfl, rfl, h.last_eq⟩
  · exact Like.refl _

theorem Like.neat_eq (h : Like p q) (t : Text) : p.neat t = q.neat t := by
  induction t generalizing p q with
  | nil => rfl
  | cons c t ih => rw [neat, neat, h.allows_eq, ih (h.step c)]

theorem Like.steps (h : Like p q) (t : Text) : Like (p.steps t) (q.steps t) := by
  induction t generalizing p q with
  | nil => exact h
  | cons c t ih => exact ih (h.step c)

end Pen

/-! ## Fair pieces -/

theorem Fair.of_gap {t : Text} (hn : Pen.start.neat t = true)
    (hw : Watch.start.steps t = Watch.start) (hg : (Pen.start.steps t).gap = false) : Fair t := by
  refine ⟨hn, hw, fun he => ?_⟩
  obtain ⟨u, rfl⟩ := List.getLast?_eq_some_iff.mp he
  rw [Pen.steps_append] at hg
  rw [Watch.steps_append] at hw
  have hs : (Pen.start.steps u).watch.string = none := by
    rw [Pen.watch_steps]
    exact congrArg Watch.string (Watch.steps_blank _ ' ' (Watch.sane_steps _ _ Watch.sane_start)
      (by decide) hw)
  have ht : (Pen.start.steps u).step ' ' = { Pen.start.steps u with gap := true } := by
    simp [Pen.step, hs]
  exact absurd ((congrArg Pen.gap ht).symm.trans hg) (by simp)

/-- The pen behind a fair copy. -/
theorem Fair.pen {t : Text} (h : Fair t) :
    Pen.start.steps t = ⟨t.getLast?.getD ',', false, Watch.start⟩ := by
  rcases List.eq_nil_or_concat t with rfl | ⟨u, c, rfl⟩
  · rfl
  · rw [List.concat_eq_append] at h ⊢
    have hc : c ≠ ' ' := by
      rintro rfl
      exact h.ends (by simp)
    have hw : Pen.start.watch.steps (u ++ [c]) = Watch.start := h.closed
    rw [Pen.steps_concat _ u c hc, hw]
    simp

/-- Behind the start and behind a comma no gap is kept. -/
theorem allows_comma_gap (w : Watch) (c : Char) (hs : w.string = none) :
    Pen.allows ⟨',', true, w⟩ c = false := by
  by_cases hc : c = ' '
  · simp [Pen.allows, hs, hc]
  · simp [Pen.allows, hs, hc, Pen.fits, isTight_comma]

/-- A fair copy begins with no space. -/
theorem Fair.head {c : Char} {t : Text} (h : Fair (c :: t)) : c ≠ ' ' := by
  rintro rfl
  have hn := h.neat
  cases t with
  | nil => exact h.ends rfl
  | cons b t =>
    have hs : Pen.start.step ' ' = ⟨',', true, Watch.start⟩ := rfl
    rw [Pen.neat, hs, Pen.neat, allows_comma_gap _ b rfl] at hn
    simp at hn

/-- A name character is none of the characters that steer the reading. -/
theorem ne_of_isName (a c : Char) (ha : Text.isName a = false) (hc : Text.isName c = true) :
    c ≠ a := by
  rintro rfl
  exact Bool.noConfusion (ha.symm.trans hc)

theorem quiet_name (c : Char) (h : Text.isName c = true) : Pen.Quiet c := by
  refine ⟨ne_of_isName '/' c (by decide) h, fun hm => ?_⟩
  rcases (Mark.mem_tight c).mp hm with rfl | rfl | rfl | rfl | rfl | rfl | rfl <;>
    exact absurd h (by decide)

theorem allows_name (p : Pen) (c : Char) (h : Text.isName c = true) (hg : p.gap = false)
    (hl : p.last ≠ '/') : p.allows c = true := by
  have hne := fun a ha => ne_of_isName a c ha h
  have hn : c ≠ '\n' := hne '\n' (by decide)
  have hs : c ≠ ' ' := hne ' ' (by decide)
  have ht : c ≠ '\t' := hne '\t' (by decide)
  have ho : c ≠ '{' := hne '{' (by decide)
  have hc : c ≠ '}' := hne '}' (by decide)
  have hz : c ≠ ';' := hne ';' (by decide)
  cases hw : p.watch.string with
  | some q => simp [Pen.allows, hw, hn]
  | none => simp [Pen.allows, hw, hs, Mark.spacing, ht, hn, ho, hc, hz, Pen.fits, hg, hl]

/-- Within a name nothing is dropped. -/
theorem neat_name (p : Pen) (w : Text) (hw : ∀ c ∈ w, Text.isName c = true) (hg : p.gap = false)
    (hl : Pen.Quiet p.last) : p.neat w = true ∧ (p.steps w).gap = false ∧
      Pen.Quiet (p.steps w).last := by
  induction w generalizing p with
  | nil => exact ⟨rfl, hg, hl⟩
  | cons c w ih =>
    have hc := hw c (by simp)
    have hs : p.step c = ⟨c, false, p.watch.step c⟩ :=
      Pen.step_solid p c (ne_of_isName ' ' c (by decide) hc)
    obtain ⟨hn, hr⟩ := ih ⟨c, false, p.watch.step c⟩ (fun a ha => hw a (by simp [ha])) rfl
      (quiet_name c hc)
    refine ⟨?_, ?_⟩
    · rw [Pen.neat, allows_name p c hc hg hl.1, hs, hn]
      rfl
    · show ((p.step c).steps w).gap = false ∧ Pen.Quiet ((p.step c).steps w).last
      rw [hs]
      exact hr

theorem fair_word (w : Text) (hw : ∀ c ∈ w, Text.isWord c = true) : Fair w := by
  cases w with
  | nil => exact ⟨rfl, rfl, by simp⟩
  | cons c w =>
    have hname : ∀ a ∈ c :: w, Text.isName a = true := fun a ha =>
      Text.isName_of_isWord a (hw a ha)
    have hc := hname c (by simp)
    have hst : Pen.start.step c = ⟨c, false, Watch.start.step c⟩ :=
      Pen.step_solid _ c (ne_of_isName ' ' c (by decide) hc)
    obtain ⟨hn, hg, -⟩ := neat_name ⟨c, false, Watch.start.step c⟩ w
      (fun a ha => hname a (by simp [ha])) rfl (quiet_name c hc)
    refine .of_gap ?_ ?_ ?_
    · rw [Pen.neat, hst, hn, allows_name Pen.start c hc rfl (by decide)]
      rfl
    · exact (Watch.keeps_unheeded Watch.start _ rfl fun a ha => Text.unheeded_word a (hw a ha)).2
    · show ((Pen.start.step c).steps w).gap = false
      rw [hst]
      exact hg

/-! ## Attaching -/

/-- A character other than a space is judged by what it is and by what it meets. -/
theorem allows_solid (p q : Pen) (c : Char) (hc : c ≠ ' ') (hw : p.watch = q.watch)
    (hs : p.watch.string = none) (hf : q.fits c = true) (h : p.allows c = true) :
    q.allows c = true := by
  rw [Pen.allows, ← hw, hs]
  simp only [Pen.allows, hs, beq_iff_eq, hc, if_false, Bool.and_eq_true] at h ⊢
  exact ⟨h.1, hf⟩

theorem neat_solid (p q : Pen) (c : Char) (t : Text) (hc : c ≠ ' ') (hw : p.watch = q.watch)
    (hs : p.watch.string = none) (hf : q.fits c = true) (h : p.neat (c :: t) = true) :
    q.neat (c :: t) = true := by
  rw [Pen.neat, Bool.and_eq_true, Pen.step_solid p c hc] at h
  rw [Pen.neat, allows_solid p q c hc hw hs hf h.1, Pen.step_solid q c hc, ← hw, h.2]
  rfl

/-- A text goes behind another character if it may follow it. -/
theorem neat_follows (a b : Char) (t : Text) (h : Pen.neat ⟨b, false, Watch.start⟩ t = true)
    (hf : follows a t = true) : Pen.neat ⟨a, false, Watch.start⟩ t = true := by
  cases t with
  | nil => rfl
  | cons c t =>
    by_cases hc : c = ' '
    · subst hc
      have ha : isTight 0 a = false := by simpa [follows] using hf
      have hst : ∀ e, Pen.step ⟨e, false, Watch.start⟩ ' ' = ⟨e, true, Watch.start⟩ := fun _ => rfl
      rw [Pen.neat, hst, Bool.and_eq_true] at h
      rw [Pen.neat, hst, Bool.and_eq_true]
      refine ⟨rfl, ?_⟩
      cases t with
      | nil => rfl
      | cons c t =>
        have hal := (Bool.and_eq_true_iff.mp h.2).1
        have hcs : c ≠ ' ' := by
          rintro rfl
          simp [Pen.allows, Watch.start] at hal
        have hd : ∀ e, Pen.depthOf ⟨e, true, Watch.start⟩ c = 0 := by
          intro e
          simp [Pen.depthOf, Watch.start]
        refine neat_solid ⟨b, true, Watch.start⟩ ⟨a, true, Watch.start⟩ c t hcs rfl rfl ?_ h.2
        simp only [Pen.allows, Watch.start, beq_iff_eq, hcs, if_false, Bool.and_eq_true] at hal
        have hfb := hal.2
        rw [← Watch.start] at hfb
        simp only [Pen.fits, if_true, hd, Bool.and_eq_true] at hfb ⊢
        exact ⟨by simp [ha], hfb.2⟩
    · refine neat_solid ⟨b, false, Watch.start⟩ ⟨a, false, Watch.start⟩ c t hc rfl rfl ?_ h
      simp only [follows, beq_iff_eq, hc, if_false] at hf
      simpa [Pen.fits, Watch.start, Bool.or_comm] using hf

theorem fair_append (s t : Text) (b : Char) (hs : Fair s)
    (ht : Pen.neat ⟨b, false, Watch.start⟩ t = true) (hw : Watch.start.steps t = Watch.start)
    (he : t.getLast? ≠ some ' ') (hf : follows (s.getLast?.getD ',') t = true) :
    Fair (s ++ t) := by
  refine ⟨?_, ?_, ?_⟩
  · rw [Pen.neat_append, hs.neat, hs.pen]
    exact neat_follows _ b t ht hf
  · rw [Watch.steps_append, hs.closed, hw]
  · rw [List.getLast?_append]
    cases hl : t.getLast? with
    | none => exact hs.ends
    | some c => simpa [hl] using he

theorem putParent_of_not_mem (path t : Text) (h : '&' ∉ t) : putParent path t = t := by
  induction t with
  | nil => rfl
  | cons c t ih =>
    rw [List.mem_cons, not_or] at h
    rw [putParent_cons path t c (Ne.symm h.1), ih h.2]

/-- The last character of a fair copy stands outside strings and brackets if it steers nothing. -/
theorem Fair.allows_last {u : Text} {c : Char} (h : Fair (u ++ [c])) (hc : c ∉ Watch.heeded) :
    (Pen.start.steps u).watch = Watch.start ∧ (Pen.start.steps u).allows c = true := by
  have hn := h.neat
  have hw := h.closed
  rw [Pen.neat_append, Bool.and_eq_true] at hn
  rw [Watch.steps_append] at hw
  refine ⟨?_, (Bool.and_eq_true_iff.mp hn.2).1⟩
  rw [Pen.watch_steps]
  exact Watch.eq_start_of_step _ c (Watch.sane_steps _ _ Watch.sane_start) hc hw

/-- A semicolon stands in a string or in brackets, so no fair copy ends in one. -/
theorem Fair.last_ne_semicolon {t : Text} (h : Fair t) : t.getLast? ≠ some ';' := by
  intro he
  obtain ⟨u, rfl⟩ := List.getLast?_eq_some_iff.mp he
  obtain ⟨hw, ha⟩ := h.allows_last (by decide)
  simp [Pen.allows, hw, Watch.start, Mark.spacing] at ha

/-- Fair copies go together with a space between them where neither is tight. -/
theorem fair_space (s t : Text) (c : Char) (hs : Fair s) (ht : Fair (c :: t))
    (hl : s.getLast?.getD ',' ∉ Mark.tight false) (hc : c ∉ Mark.tight false) :
    Fair (s ++ ' ' :: c :: t) := by
  have htl := isTight_of_not_mem 0 _ hl
  have hn : Pen.neat ⟨'&', true, Watch.start⟩ (c :: t) = true := by
    refine neat_solid Pen.start _ c t ht.head rfl rfl ?_ ht.neat
    have hd : Pen.depthOf ⟨'&', true, Watch.start⟩ c = 0 := by simp [Pen.depthOf, Watch.start]
    simp [Pen.fits, hd, isTight_of_not_mem 0 c hc, isTight_of_not_mem 0 '&' (by decide)]
  refine fair_append s (' ' :: c :: t) '&' hs ?_ ht.closed ?_ ?_
  · rw [Pen.neat, Bool.and_eq_true]
    exact ⟨rfl, hn⟩
  · rw [List.getLast?_cons_cons]
    exact ht.ends
  · simpa [follows] using htl

/-- Whether `&` stands at most in front of each segment of a list. -/
def ParentsLead (t : Text) : Prop := ∀ e ∈ entries t, '&' ∉ e.tail

instance (t : Text) : Decidable (ParentsLead t) :=
  inferInstanceAs (Decidable (∀ e ∈ entries t, '&' ∉ e.tail))

end NestedCss.Scan
