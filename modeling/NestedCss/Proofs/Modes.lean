import NestedCss.Proofs.Drafts
import NestedCss.Proofs.Relexing

/-!
# Reading by characters

A source can be read one character at a time, if the reader knows whether it stands outside, behind
a slash that may begin a comment, in a string or in a comment. The statements are those that the
lexemes give. Blanks end no statement in any mode, and at the end of a source they change none.
-/

set_option autoImplicit false

namespace NestedCss.Scan

namespace Draft

def gapped (d : Draft) : Draft := { d with gap := true }

/-- Adds a character to the piece that is being written. -/
def write (d : Draft) (c : Char) : Draft := { d with written := c :: d.written }

def writeAll (d : Draft) (t : Text) : Draft := t.foldl write d

theorem writeAll_eq (d : Draft) (t : Text) :
    d.writeAll t = { d with written := t.reverse ++ d.written } := by
  induction t generalizing d with
  | nil => rfl
  | cons c t ih =>
    rw [writeAll, List.foldl_cons]
    exact (ih (d.write c)).trans (by simp [write])

/-- A piece may be written character by character behind its first. -/
theorem put_cons (d : Draft) (c : Char) (t : Text) : d.put (c :: t) = (d.put [c]).writeAll t := by
  have hs : d.spaces (c :: t) = d.spaces [c] := by
    rw [spaces_eq, spaces_eq]
    rfl
  rw [writeAll_eq, put, put, hs]
  simp

end Draft

/-- Where a reader stands. -/
inductive Mode where
  | outside (d : Draft)
  /-- Behind a slash, with the draft that it is written to and the one that a comment leaves. -/
  | slash (d e : Draft)
  | string (d : Draft) (quote : Char) (escaped : Bool)
  /-- In a block comment, perhaps behind a star. -/
  | block (d : Draft) (star : Bool)
  | line (d : Draft)
  deriving DecidableEq

namespace Mode

/-- Takes a character that is no part of a comment or a string. -/
def enter (d : Draft) (c : Char) : Mode × List Statement :=
  if Mark.quotes.contains c then (.string (d.put [c]) c false, [])
  else if c == '/' then (.slash (d.put ['/']) d.gapped, [])
  else if Mark.spacing.contains c then (.outside d.gapped, [])
  else (.outside (d.mark 1 c).draft, (d.mark 1 c).gist.statements)

/-- Takes a character, which may end some statements. -/
def feed : Mode → Char → Mode × List Statement
  | .outside d, c => enter d c
  | .slash d e, c =>
    if c == '*' then (.block e false, [])
    else if c == '/' && d.depth == 0 then (.line e, [])
    else enter d c
  | .string d q true, c => (.string (d.write c) q false, [])
  | .string d q false, c =>
    if c == '\\' then (.string (d.write c) q true, [])
    else if c == '\n' then (.outside d, [])
    else if c == q then (.outside (d.write c), [])
    else (.string (d.write c) q false, [])
  | .block d star, c => if star && c == '/' then (.outside d, []) else (.block d (c == '*'), [])
  | .line d, c => if c == '\n' then (.outside d, []) else (.line d, [])

def draft : Mode → Draft
  | .outside d => d
  | .slash d _ => d
  | .string d _ _ => d
  | .block d _ => d
  | .line d => d

/-- The statements that a text ends, read to its end. -/
def run (m : Mode) : Text → List Statement
  | [] => (m.draft.declarations 1).map Statement.unplaced
  | c :: r => (m.feed c).2 ++ run (m.feed c).1 r

attribute [local simp] run feed

theorem run_string (d : Draft) (q : Char) (t body r : Text) (ending : StringEnd)
    (h : readString q t = (body, ending, r)) :
    run (.string d q false) t =
      run (.outside (d.writeAll (body ++ if ending = .closed then [q] else []))) r := by
  fun_induction readString q t generalizing d body r with
  | case1 =>
    obtain ⟨rfl, rfl, rfl⟩ := h
    rfl
  | case2 =>
    obtain ⟨rfl, rfl, rfl⟩ := h
    rfl
  | case3 c t body' ending' rest hr ih =>
    simp only [Prod.mk.injEq] at h
    obtain ⟨rfl, rfl, rfl⟩ := h
    exact ih ((d.write '\\').write c) body' rest hr
  | case4 c t h₁ h₂ hc =>
    obtain ⟨rfl, rfl, rfl⟩ := h
    obtain rfl : c = '\n' := by simpa using hc
    rfl
  | case5 c t h₁ h₂ hn hc =>
    obtain ⟨rfl, rfl, rfl⟩ := h
    have hne := ne_backslash c t h₁ h₂
    obtain rfl : c = q := by simpa using hc
    simp [hne, hn, Draft.writeAll]
  | case6 c t h₁ h₂ hnl hc body' ending' rest hr ih =>
    simp only [Prod.mk.injEq] at h
    obtain ⟨rfl, rfl, rfl⟩ := h
    have hne := ne_backslash c t h₁ h₂
    have hi := ih (d.write c) body' rest hr
    simpa [hne, hnl, hc, Draft.writeAll] using hi

theorem run_block_star (d : Draft) (t : Text) (h : t.head? ≠ some '/') :
    run (.block d true) t = run (.block d false) t := by
  cases t with
  | nil => rfl
  | cons c r =>
    have hc : c ≠ '/' := by simpa using h
    simp [hc]

theorem run_block (d : Draft) (t : Text) :
    run (.block d false) t = run (.outside d) (readComment t).2.2 := by
  fun_induction readComment t with
  | case1 => rfl
  | case2 r => rfl
  | case3 c r h body closed rest hr ih =>
    have hs : run (.block d false) (c :: r) = run (.block d (c == '*')) r := rfl
    rw [hs]
    by_cases hc : c = '*'
    · subst hc
      have hn : r.head? ≠ some '/' := by
        intro hh
        obtain ⟨u, rfl⟩ := List.head?_eq_some_iff.mp hh
        exact h u rfl rfl
      rw [beq_self_eq_true, run_block_star d r hn, ih, hr]
    · have hb : (c == '*') = false := by simpa using hc
      rw [hb, ih, hr]

theorem run_line (d : Draft) (t : Text) (h : d.gap = true) :
    run (.line d) t = run (.outside d) (t.dropWhile (· != '\n')) := by
  induction t with
  | nil => rfl
  | cons c r ih =>
    by_cases hc : c = '\n'
    · subst hc
      have hg : d.gapped = d := by
        rw [Draft.gapped, ← h]
      simp [enter, Mark.quotes, Mark.spacing, hg]
    · simpa [hc] using ih

/-- A slash that begins no comment is a mark. -/
theorem run_slash (d e : Draft) (t : Text) (h : Separate d.depth t) :
    run (.slash d e) t = run (.outside d) t := by
  cases t with
  | nil => rfl
  | cons c r =>
    have hs : c ≠ '*' := by simpa using h.1
    have hd : d.depth = 0 → c ≠ '/' := fun hz => by simpa using h.2 hz
    by_cases hc : c = '/'
    · have hz : d.depth ≠ 0 := fun hz => hd hz hc
      simp [hs, hz]
    · simp [hs, hc]

theorem stringText_eq (q : Char) (body : Text) (ending : StringEnd) :
    Draft.stringText q body ending = q :: (body ++ if ending = .closed then [q] else []) := by
  cases ending <;> simp [Draft.stringText]

theorem mark_slash (d : Draft) : d.mark 1 '/' = ⟨d.put ['/'], [], []⟩ := by
  simp [Draft.mark, Mark.openers, Mark.closers]

/-- The characters of a lexeme do what the lexeme does. -/
theorem run_next (d : Draft) (t r : Text) (x : Lexeme) (h : next? d.depth t = some (x, r)) :
    run (.outside d) t =
      (d.step 1 x).gist.statements ++ run (.outside (d.step 1 x).draft) r := by
  cases t with
  | nil => simp [next?] at h
  | cons c s =>
    have hc : run (.outside d) (c :: s) = (enter d c).2 ++ run (enter d c).1 s := rfl
    by_cases hs : c = '/' → Separate d.depth s
    · rw [next?_cons d.depth c s hs] at h
      rw [hc, enter]
      by_cases hq : Mark.quotes.contains c = true
      · rw [if_pos hq] at h ⊢
        obtain ⟨rfl, rfl⟩ := Prod.mk.inj (Option.some.inj h)
        have hr := run_string (d.put [c]) c s _ _ _ rfl
        rw [← Draft.put_cons, ← stringText_eq] at hr
        exact hr
      rw [if_neg hq] at h ⊢
      by_cases hl : c = '/'
      · subst hl
        obtain ⟨rfl, rfl⟩ := Prod.mk.inj (Option.some.inj h)
        have hr := run_slash (d.put ['/']) d.gapped s (hs rfl)
        show run (.slash (d.put ['/']) d.gapped) s =
          (d.mark 1 '/').gist.statements ++ run (.outside (d.mark 1 '/').draft) s
        rw [hr, mark_slash]
        rfl
      rw [if_neg (by simpa using hl)]
      by_cases hb : Mark.spacing.contains c = true
      · rw [if_pos hb] at h ⊢
        obtain ⟨rfl, rfl⟩ := Prod.mk.inj (Option.some.inj h)
        rfl
      · rw [if_neg hb] at h ⊢
        obtain ⟨rfl, rfl⟩ := Prod.mk.inj (Option.some.inj h)
        rfl
    · obtain ⟨rfl, hn⟩ := Classical.not_imp.mp hs
      have he : enter d '/' = (.slash (d.put ['/']) d.gapped, []) := by
        simp [enter, Mark.quotes]
      rw [hc, he, List.nil_append]
      rcases next?_comment d.depth s hn with ⟨u, rfl, hx⟩ | ⟨u, rfl, hd, hx⟩
      · obtain ⟨rfl, rfl⟩ := Prod.mk.inj (Option.some.inj (hx.symm.trans h))
        exact run_block d.gapped u
      · obtain ⟨rfl, rfl⟩ := Prod.mk.inj (Option.some.inj (hx.symm.trans h))
        have hl := run_line d.gapped u rfl
        have hf : feed (.slash (d.put ['/']) d.gapped) '/' = (.line d.gapped, []) := by
          have hz : (d.put ['/']).depth = 0 := hd
          simp [feed, hz]
        rw [run, hf]
        exact hl

/-- What is read by characters is what is read by lexemes. -/
theorem run_eq_gist (n : Nat) (d : Draft) (t : Text) (hn : d.depth = n) :
    run (.outside d) t = (gist d t).statements := by
  induction n, t using lexemes.induct generalizing d with
  | case1 n t hx =>
    obtain rfl := (next?_eq_none_iff n t).mp hx
    rw [gist_nil]
    rfl
  | case2 n t x r hx ih =>
    subst hn
    rw [run_next d t r x hx, gist_next d t r x hx, ih _ (Draft.depth_step d 1 x)]
    rfl

/-! ## Blanks -/

/-- Where a reader stands behind a text. -/
def walk (m : Mode) (t : Text) : Mode := t.foldl (fun m c => (m.feed c).1) m

/-- A blank leaves the reader outside and the text as it was. -/
theorem enter_blank (d : Draft) (c : Char) (h : Text.isBlank c = true) :
    ∃ e, enter d c = (.outside e, []) ∧ e.text = d.text ∧ e.depth = d.depth := by
  have hm : ∀ a ∈ Mark.quotes ++ Mark.openers ++ Mark.closers ++ ['/', '{', '}', ';'],
      Text.isBlank a = false := by
    simp [Mark.quotes, Mark.openers, Mark.closers, Text.isBlank, Text.blanks, Text.Ranges.holds]
  have hc : c ∉ Mark.quotes ++ Mark.openers ++ Mark.closers ++ ['/', '{', '}', ';'] := by
    intro hc
    rw [hm c hc] at h
    exact absurd h (by simp)
  simp only [List.mem_append, List.mem_cons, List.not_mem_nil, or_false, not_or] at hc
  obtain ⟨⟨⟨hq, ho⟩, hl⟩, hs, hb, hd, hz⟩ := hc
  have hp : d.mark 1 c = ⟨d.put [c], [], []⟩ := by simp [Draft.mark, ho, hl, hb, hd, hz]
  by_cases hg : c ∈ Mark.spacing
  · have he : enter d c = (.outside d.gapped, []) := by simp [enter, hq, hs, hg]
    exact ⟨d.gapped, he, rfl, rfl⟩
  · have he : enter d c = (.outside (d.put [c]), []) := by
      simp [enter, hq, hs, hg, hp, Outcome.gist]
    exact ⟨d.put [c], he, Draft.text_put_blank d [c] (by simpa using h), rfl⟩

theorem text_write_blank (d : Draft) (c : Char) (h : Text.isBlank c = true) :
    (d.write c).text = d.text := by
  rw [Draft.text, Draft.write, List.reverse_cons]
  exact Text.trim_append_blank _ [c] (by simpa using h)

/-- A blank ends no statement and adds nothing to one that ends with it. -/
theorem feed_blank (m : Mode) (c : Char) (h : Text.isBlank c = true) :
    (m.feed c).2 = [] ∧ (m.feed c).1.draft.text = m.draft.text := by
  have hw := fun d => text_write_blank d c h
  have enter_shown : ∀ d, (enter d c).2 = [] ∧ (enter d c).1.draft.text = d.text := by
    intro d
    obtain ⟨e, he, ht, -⟩ := enter_blank d c h
    rw [he]
    exact ⟨rfl, ht⟩
  cases m with
  | outside d => exact enter_shown d
  | slash d e =>
    have hs := Text.ne_of_isBlank c '*' h (by decide)
    have hl := Text.ne_of_isBlank c '/' h (by decide)
    have hf : feed (.slash d e) c = enter d c := by simp [feed, hs, hl]
    rw [hf]
    exact enter_shown d
  | string d q escaped =>
    cases escaped with
    | true => exact ⟨rfl, hw d⟩
    | false =>
      simp only [feed]
      split_ifs
      · exact ⟨rfl, hw d⟩
      · exact ⟨rfl, rfl⟩
      · exact ⟨rfl, hw d⟩
      · exact ⟨rfl, hw d⟩
  | block d star =>
    simp only [feed]
    split_ifs <;> exact ⟨rfl, rfl⟩
  | line d =>
    simp only [feed]
    split_ifs <;> exact ⟨rfl, rfl⟩

theorem run_blanks (m : Mode) (b t : Text) (h : ∀ c ∈ b, Text.isBlank c = true) :
    run m (b ++ t) = run (m.walk b) t := by
  induction b generalizing m with
  | nil => rfl
  | cons c b ih =>
    rw [List.cons_append, run, (feed_blank m c (h c (by simp))).1]
    exact ih _ fun a ha => h a (by simp [ha])

/-- Blanks at the end of a source change nothing. -/
theorem run_blank_end (m : Mode) (b : Text) (h : ∀ c ∈ b, Text.isBlank c = true) :
    run m b = run m [] := by
  induction b generalizing m with
  | nil => rfl
  | cons c b ih =>
    obtain ⟨hs, ht⟩ := feed_blank m c (h c (by simp))
    show (m.feed c).2 ++ run (m.feed c).1 b = _
    rw [hs, List.nil_append, ih _ fun a ha => h a (by simp [ha])]
    simp only [run, Draft.declarations, Draft.declaration?, ht]

end Mode

end NestedCss.Scan
