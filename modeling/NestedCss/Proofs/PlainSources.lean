import NestedCss.Proofs.Transparency

/-!
# Plain sources

Squeezing makes no difference to a source without strings, comments and opening brackets whose
blanks are all spaces, tabs and line breaks. Such a source is read outside all the way, and behind
each semicolon the draft is empty.
-/

set_option autoImplicit false

namespace NestedCss.Squeeze
open NestedCss.Scan

/-- A character that leads into no string, comment or bracket and is no blank of another kind. -/
structure Plain (c : Char) : Prop where
  no_quote : c ∉ Mark.quotes
  no_slash : c ≠ '/'
  no_opener : c ∉ Mark.openers
  blank : Text.isBlank c = true → c ∈ Mark.spacing

/-- Where the reading of a plain source stands behind a character. -/
structure Flat (before : Option Char) (d : Draft) : Prop where
  depth_eq : d.depth = 0
  head_eq : ∀ a, d.written.head? = some a → before = some a
  empty_eq : before = some ';' → d = Draft.empty

theorem flat_start : Flat none Draft.empty := by
  constructor
  · rfl
  · intro a h
    simp [Draft.empty] at h
  · intro h
    simp at h

theorem tight_of_isMark (c : Char) (h : isMark (some c) = true) : c ∈ Mark.tight false := by
  have hm : ∀ a ∈ marks, a ∈ Mark.tight false := by simp [marks, Mark.tight]
  exact hm c (by simpa [isMark] using h)

/-- At depth zero no space shows next to a mark. -/
theorem quiet_flat (before : Option Char) (d : Draft) (c : Char) (h : Flat before d)
    (hm : (isMark before || isMark (some c)) = true) : quiet d c = true := by
  have hz : (if Mark.closers.contains c then d.depth - 1 else d.depth) = 0 := by
    simp [h.depth_eq]
  have hs : Draft.spaces ⟨d.written, true, 0⟩ [c] = false := by
    rw [Draft.spaces_eq]
    cases ha : d.written.head? with
    | none => rfl
    | some a =>
      rw [h.head_eq a ha, Bool.or_eq_true] at hm
      rcases hm with hm | hm
      · simp [Draft.isTight, tight_of_isMark a hm]
      · simp [Draft.isTight, tight_of_isMark c hm]
  simp only [quiet, hz, hs]
  simp

theorem flat_enter (d : Draft) (c : Char) (hd : d.depth = 0) (hp : Plain c)
    (hb : Text.isBlank c = false) :
    ∃ e, (Mode.enter d c).1 = .outside e ∧ Flat (some c) e := by
  have hs : c ∉ Mark.spacing := fun hm =>
    Bool.noConfusion (hb.symm.trans (Mark.spacing_blank c hm))
  have he : (Mode.enter d c).1 = .outside (d.mark 1 c).draft := by
    simp [Mode.enter, hp.no_quote, hp.no_slash, hs]
  refine ⟨_, he, ?_⟩
  have hw : ∀ e : Draft, e.depth = 0 → c ≠ ';' → Flat (some c) (e.put [c]) := by
    intro e hz hn
    constructor
    · exact hz
    · intro a ha
      simpa [Draft.put] using ha
    · intro hc
      exact absurd (Option.some.inj hc) hn
  have hf : Flat (some c) Draft.empty := by
    constructor
    · rfl
    · intro a ha
      simp [Draft.empty] at ha
    · intro _
      rfl
  have ho := hp.no_opener
  by_cases hc : c ∈ Mark.closers
  · have hn : c ≠ ';' := by
      rintro rfl
      exact absurd hc (by decide)
    have hm : d.mark 1 c = ⟨Draft.put { d with depth := d.depth - 1 } [c], [], []⟩ := by
      simp [Draft.mark, ho, hc]
    rw [hm]
    exact hw { d with depth := d.depth - 1 } (by simp [hd]) hn
  by_cases hl : c = '{' ∨ c = '}' ∨ c = ';'
  · have hm : (d.mark 1 c).draft = Draft.empty := by
      rcases hl with rfl | rfl | rfl <;> simp [Draft.mark, Mark.openers, Mark.closers, hd]
    rw [hm]
    exact hf
  · simp only [not_or] at hl
    have hm : d.mark 1 c = ⟨d.put [c], [], []⟩ := by simp [Draft.mark, ho, hc, hl]
    rw [hm]
    exact hw d hd hl.2.2

theorem harmless_flat (before : Option Char) (d : Draft) (run t : Text) (h : Flat before d)
    (hr : ∀ c ∈ run, c ∈ Mark.spacing) (ht : ∀ c ∈ t, Plain c) :
    harmless (.outside d) before run t = true := by
  induction t generalizing before d run with
  | nil => rfl
  | cons c r ih =>
    have hp := ht c (by simp)
    have hrest : ∀ a ∈ r, Plain a := fun a ha => ht a (by simp [ha])
    rw [harmless]
    by_cases hb : Text.isBlank c = true
    · rw [if_pos hb]
      apply ih before d (c :: run) h _ hrest
      intro a ha
      rcases List.mem_cons.mp ha with rfl | ha
      · exact hp.blank hb
      · exact hr a ha
    rw [if_neg hb]
    by_cases hs : (c == ';' && before == some ';') = true
    · have hs' : c = ';' ∧ before = some ';' := by simpa using hs
      have hd := h.empty_eq hs'.2
      rw [if_pos hs, ih before d [] h (by simp) hrest]
      simp [idle, hd]
    rw [if_neg hs]
    have hspared : spares (.outside d) before run.reverse c = true := by
      have he : even (isMark before || isMark (some c)) run.reverse = true := by
        simpa [even] using Or.inl hr
      simp only [spares, he, Bool.true_and, Bool.or_eq_true, Bool.not_eq_true']
      right
      by_cases hm : (isMark before || isMark (some c)) = true
      · exact Or.inr (quiet_flat before d c h hm)
      · exact Or.inl (by simpa using hm)
    obtain ⟨d', hd', hz⟩ :
        ∃ d', Mode.walk (.outside d) run.reverse = .outside d' ∧ d'.depth = 0 := by
      by_cases hn : run.reverse = []
      · rw [hn]
        exact ⟨d, rfl, h.depth_eq⟩
      · exact ⟨d.gapped, walk_spacing d _ hn (by simpa using hr), h.depth_eq⟩
    obtain ⟨e, he, hf⟩ := flat_enter d' c hz hp (by simpa using hb)
    have hw : Mode.walk (.outside d) (run.reverse ++ [c]) = .outside e := by
      rw [Mode.walk, List.foldl_append]
      show (Mode.feed (Mode.walk (.outside d) run.reverse) c).1 = _
      rw [hd']
      exact he
    rw [hspared, hw, Bool.true_and]
    exact ih (some c) e [] hf (by simp) hrest

/-- Squeezing makes no difference to a plain source. -/
theorem harmless_plain (source : Text) (h : ∀ c ∈ Text.unifyBreaks source, Plain c) :
    Harmless source :=
  harmless_flat none Draft.empty [] _ flat_start (by simp) h

end NestedCss.Squeeze
