import NestedCss.Text.Breaks

/-!
# Unified line breaks

Unifying leaves only line feeds of all line breaks, and a text with no other it leaves as it is. It
works on each side of a character that is not blank by itself.
-/

set_option autoImplicit false

namespace NestedCss.Text

/-- Whether a character is no line break of another form. -/
def Plain (c : Char) : Prop := c ≠ '\r' ∧ c ≠ '\x0c'

instance (c : Char) : Decidable (Plain c) := inferInstanceAs (Decidable (_ ∧ _))

/-- A character that does not begin a line break of two characters is unified by itself. -/
theorem unifyBreaks_cons (c : Char) (r : Text) (h : c = '\r' → ∀ x, r ≠ '\n' :: x) :
    unifyBreaks (c :: r) = (if c == '\r' || c == '\x0c' then '\n' else c) :: unifyBreaks r := by
  rw [unifyBreaks]
  exact fun x hc hr => h hc x hr

theorem eq_of_mem_unifyBreaks (t : Text) :
    ∀ c ∈ unifyBreaks t, c = '\n' ∨ c ∈ t ∧ Plain c := by
  fun_induction unifyBreaks t with
  | case1 r ih =>
    intro c hc
    rcases List.mem_cons.mp hc with rfl | hc
    · exact Or.inl rfl
    · exact (ih c hc).imp_right fun hr => ⟨by simp [hr.1], hr.2⟩
  | case2 a r _ ih =>
    intro c hc
    rcases List.mem_cons.mp hc with rfl | hc
    · split
      · exact Or.inl rfl
      · exact Or.inr ⟨by simp, by simp_all [Plain]⟩
    · exact (ih c hc).imp_right fun hr => ⟨by simp [hr.1], hr.2⟩
  | case3 => simp

theorem plain_unifyBreaks (t : Text) : ∀ c ∈ unifyBreaks t, Plain c := by
  intro c hc
  rcases eq_of_mem_unifyBreaks t c hc with rfl | ⟨-, hp⟩
  · decide
  · exact hp

theorem blank_unifyBreaks (t : Text) (h : ∀ c ∈ t, isBlank c = true) :
    ∀ c ∈ unifyBreaks t, isBlank c = true := by
  intro c hc
  rcases eq_of_mem_unifyBreaks t c hc with rfl | ⟨ht, -⟩
  · decide
  · exact h c ht

theorem unifyBreaks_plain (t : Text) (h : ∀ c ∈ t, Plain c) : unifyBreaks t = t := by
  induction t with
  | nil => rfl
  | cons c r ih =>
    obtain ⟨hr, hf⟩ := h c (by simp)
    rw [unifyBreaks_cons c r fun hc => absurd hc hr, ih fun a ha => h a (by simp [ha])]
    simp [hr, hf]

theorem unifyBreaks_append (s t : Text) (c : Char) (hc : isBlank c = false) :
    unifyBreaks (s ++ c :: t) = unifyBreaks s ++ c :: unifyBreaks t := by
  have hn := (ne_of_isBlank '\n' c (by decide) hc).symm
  have hr := (ne_of_isBlank '\r' c (by decide) hc).symm
  have hf := (ne_of_isBlank '\x0c' c (by decide) hc).symm
  fun_induction unifyBreaks s with
  | case1 r ih => exact congrArg ('\n' :: ·) ih
  | case2 a r h ih =>
    rw [List.cons_append, unifyBreaks_cons, ih]
    · rfl
    · intro ha u hu
      cases r with
      | nil => exact hn (List.cons.inj hu).1
      | cons e r =>
        obtain ⟨rfl, -⟩ := List.cons.inj hu
        exact h r ha rfl
  | case3 =>
    rw [List.nil_append, unifyBreaks_cons c t fun ha => absurd ha hr]
    simp [hr, hf]

/-- Blanks in front of a text stay blanks in front of it, a line break of two characters aside. -/
theorem unifyBreaks_blanks (b r : Text) (hb : ∀ c ∈ b, isBlank c = true) :
    ∃ d, unifyBreaks (b ++ r) = d ++ unifyBreaks r ∧
      ∀ c ∈ d, isBlank c = true := by
  have hn : isBlank '\n' = true := by decide
  induction b with
  | nil => exact ⟨[], rfl, by simp⟩
  | cons c b ih =>
    obtain ⟨d, hd, hbd⟩ := ih fun a ha => hb a (by simp [ha])
    by_cases hc : c = '\r' ∧ ∃ x, b ++ r = '\n' :: x
    · obtain ⟨rfl, x, hx⟩ := hc
      refine ⟨d, ?_, hbd⟩
      rw [← hd, List.cons_append, hx, unifyBreaks_cons '\n' x (by simp)]
      rfl
    · refine ⟨(if c == '\r' || c == '\x0c' then '\n' else c) :: d, ?_, fun a ha => ?_⟩
      · rw [List.cons_append, unifyBreaks_cons c _ fun hr x hx => hc ⟨hr, x, hx⟩, hd]
        rfl
      · rcases List.mem_cons.mp ha with rfl | ha
        · split
          · exact hn
          · exact hb c (by simp)
        · exact hbd a ha

theorem mem_unifyBreaks (t : Text) (h : '\n' ∈ t) : '\n' ∈ unifyBreaks t := by
  fun_induction unifyBreaks t with
  | case1 r ih => simp
  | case2 a r _ ih =>
    rcases List.mem_cons.mp h with rfl | h
    · simp
    · exact List.mem_cons_of_mem _ (ih h)
  | case3 => exact h

end NestedCss.Text
