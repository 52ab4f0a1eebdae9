import Mathlib.Data.List.Basic
import NestedCss.Scan.Lexeme

/-!
# Lexemes found again

Where a lexeme stands in another text with as many brackets open, it is found there again, if what
follows makes no comment of its slash.
-/

set_option autoImplicit false

namespace NestedCss.Scan

/-- Whether no comment begins with a slash before the text. -/
def Separate (depth : Nat) (r : Text) : Prop :=
  r.head? ≠ some '*' ∧ (depth = 0 → r.head? ≠ some '/')

/-- Whether no comment begins at the border of two texts. -/
def Apart (depth : Nat) (u r : Text) : Prop := u.getLast? = some '/' → Separate depth r

theorem apart_nil (depth : Nat) (r : Text) : Apart depth [] r := by
  simp [Apart]

theorem apart_concat (depth : Nat) (u r : Text) (c : Char) (h : c ≠ '/') :
    Apart depth (u ++ [c]) r := by
  intro hl
  simp only [List.getLast?_concat, Option.some.injEq] at hl
  exact absurd hl h

/-- Off comments the first character alone says what lexeme it begins. -/
theorem next?_cons (depth : Nat) (c : Char) (r : Text) (h : c = '/' → Separate depth r) :
    next? depth (c :: r) =
      if Mark.quotes.contains c then
        some (.quotation c (readString c r).1 (readString c r).2.1, (readString c r).2.2)
      else if Mark.spacing.contains c then some (.blank c, r)
      else some (.mark c, r) := by
  have hq : '/' ∉ Mark.quotes := by decide
  have hb : '/' ∉ Mark.spacing := by decide
  unfold next?
  split
  · next heq => simp at heq
  · next s heq =>
    obtain ⟨rfl, rfl⟩ := List.cons.inj heq
    exact absurd rfl (h rfl).1
  · next s heq =>
    obtain ⟨rfl, rfl⟩ := List.cons.inj heq
    have hd : depth ≠ 0 := fun hz => (h rfl).2 hz rfl
    simp [hd, hq, hb]
  · next a s _ _ heq =>
    obtain ⟨rfl, rfl⟩ := List.cons.inj heq
    rfl

theorem next?_comment (depth : Nat) (r : Text) (h : ¬ Separate depth r) :
    (∃ s, r = '*' :: s ∧ next? depth ('/' :: r) =
      some (.blockComment (readComment s).1 (readComment s).2.1, (readComment s).2.2)) ∨
    ∃ s, r = '/' :: s ∧ depth = 0 ∧ next? depth ('/' :: r) =
      some (.lineComment (s.takeWhile (· != '\n')), s.dropWhile (· != '\n')) := by
  simp only [Separate, Classical.not_and_iff_not_or_not, Classical.not_not, Classical.not_imp] at h
  rcases h with h | ⟨hd, h⟩
  · obtain ⟨s, rfl⟩ := List.head?_eq_some_iff.mp h
    exact Or.inl ⟨s, rfl, rfl⟩
  · obtain ⟨s, rfl⟩ := List.head?_eq_some_iff.mp h
    exact Or.inr ⟨s, rfl, hd, by simp [next?, hd]⟩

theorem next?_mark_iff (depth : Nat) (t r : Text) (c : Char) :
    next? depth t = some (.mark c, r) ↔
      t = c :: r ∧ c ∉ Mark.quotes ∧ c ∉ Mark.spacing ∧ (c = '/' → Separate depth r) := by
  constructor
  · intro h
    have ht : t = c :: r := by simpa [Lexeme.source] using (next?_source depth t _ r h).symm
    subst ht
    have hs : c = '/' → Separate depth r := by
      intro hc
      by_contra hn
      subst hc
      rcases next?_comment depth r hn with ⟨s, -, hx⟩ | ⟨s, -, -, hx⟩ <;> simp [hx] at h
    rw [next?_cons depth c r hs] at h
    split_ifs at h with hq hb <;> simp_all
  · rintro ⟨rfl, hq, hb, hs⟩
    rw [next?_cons depth c r hs]
    simp [hq, hb]

theorem next?_blank (depth : Nat) (c : Char) (r : Text) (h : c ∈ Mark.spacing) :
    next? depth (c :: r) = some (.blank c, r) := by
  have hc : c ≠ '/' := by rintro rfl; exact absurd h (by decide)
  have hq : c ∉ Mark.quotes := fun hq =>
    Bool.noConfusion ((Mark.quotes_solid c hq).symm.trans (Mark.spacing_blank c h))
  rw [next?_cons depth c r fun he => absurd he hc]
  simp [hq, h]

theorem next?_quote (depth : Nat) (q : Char) (r : Text) (h : q ∈ Mark.quotes) :
    next? depth (q :: r) =
      some (.quotation q (readString q r).1 (readString q r).2.1, (readString q r).2.2) := by
  have hc : q ≠ '/' := by rintro rfl; exact absurd h (by decide)
  rw [next?_cons depth q r fun he => absurd he hc]
  simp [h]

theorem next?_quotation (depth : Nat) (t r body : Text) (q : Char) (ending : StringEnd)
    (h : next? depth t = some (.quotation q body ending, r)) :
    q ∈ Mark.quotes ∧ ∃ s, t = q :: s ∧ readString q s = (body, ending, r) := by
  cases t with
  | nil => simp [next?] at h
  | cons c s =>
    by_cases hs : c = '/' → Separate depth s
    · rw [next?_cons depth c s hs] at h
      split_ifs at h with hq hb
      · simp only [Option.some.injEq, Prod.mk.injEq, Lexeme.quotation.injEq] at h
        obtain ⟨⟨rfl, rfl, rfl⟩, rfl⟩ := h
        exact ⟨by simpa using hq, s, rfl, rfl⟩
      all_goals simp at h
    · obtain ⟨rfl, hn⟩ := Classical.not_imp.mp hs
      rcases next?_comment depth s hn with ⟨u, -, hx⟩ | ⟨u, -, -, hx⟩ <;> simp [hx] at h

theorem ne_backslash (c : Char) (t : Text) (h₁ : c = '\\' → t = [] → False)
    (h₂ : ∀ a u, c = '\\' → t = a :: u → False) : c ≠ '\\' := by
  intro hc
  cases t with
  | nil => exact h₁ hc rfl
  | cons a u => exact h₂ a u hc rfl

theorem readString_cons (q c : Char) (r : Text) (h : c ≠ '\\') :
    readString q (c :: r) =
      if c == '\n' then ([], .broken, r)
      else if c == q then ([], .closed, r)
      else (c :: (readString q r).1, (readString q r).2.1, (readString q r).2.2) := by
  rw [readString]
  · exact fun hc => absurd hc h
  · exact fun _ _ hc => absurd hc h

/-- A closed string is the same whatever comes behind it. -/
theorem readString_closed (q : Char) (t body r : Text) (hq : q ∈ Mark.quotes)
    (h : readString q t = (body, .closed, r)) :
    t = body ++ q :: r ∧ ∀ s, readString q (body ++ q :: s) = (body, .closed, s) := by
  have hn : q ≠ '\n' := by rintro rfl; exact absurd hq (by decide)
  have hb : q ≠ '\\' := by rintro rfl; exact absurd hq (by decide)
  fun_induction readString q t generalizing body r with
  | case1 => simp at h
  | case2 => simp at h
  | case3 c t body' ending rest hr ih =>
    simp only [Prod.mk.injEq] at h
    obtain ⟨rfl, rfl, rfl⟩ := h
    obtain ⟨ht, hs⟩ := ih body' rest hr
    exact ⟨by rw [ht]; simp, fun s => by simp [readString, hs s]⟩
  | case4 c t => simp at h
  | case5 c t _ _ _ hc =>
    simp only [Prod.mk.injEq, true_and] at h
    obtain ⟨rfl, rfl⟩ := h
    refine ⟨by simp_all, fun s => ?_⟩
    rw [List.nil_append, readString_cons q q s hb]
    simp [hn]
  | case6 c t h₁ h₂ hnl hc body' ending rest hr ih =>
    simp only [Prod.mk.injEq] at h
    obtain ⟨rfl, rfl, rfl⟩ := h
    obtain ⟨ht, hs⟩ := ih body' rest hr
    have hne := ne_backslash c t h₁ h₂
    refine ⟨by rw [ht]; simp, fun s => ?_⟩
    rw [List.cons_append, readString_cons q c _ hne, hs s]
    simp [hnl, hc]

end NestedCss.Scan
