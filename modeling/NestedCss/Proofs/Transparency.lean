import NestedCss.Proofs.Modes
import NestedCss.Proofs.Placeless
import NestedCss.Proofs.Thinning

/-!
# Transparency

Squeezing knows neither strings nor comments nor brackets, and the reading does. Outside all of
them what is squeezed away means nothing. It does mean something where a string is changed, where a
line comment loses the break that ends it, and where a gap would show inside brackets. As long as
none of this happens, the squeezed text is read in step with the text itself, in the same mode
behind each character that stays, and comes to the same css.
-/

set_option autoImplicit false

namespace NestedCss.Squeeze
open NestedCss.Scan

/-- Whether a gap before a character would not show. -/
def quiet (d : Draft) (c : Char) : Bool :=
  let depth := if Mark.closers.contains c then d.depth - 1 else d.depth
  d.gap || c == '{' || c == '}' || (c == ';' && d.depth == 0) ||
    !Draft.spaces { d with gap := true, depth := depth } [c]

/-- Whether a run of blanks outside strings and comments means no more than one of them, or stays
as it is. -/
def even (near : Bool) (b : Text) : Bool :=
  b.all Mark.spacing.contains || !(near || b.contains '\n')

/-- Whether it makes no difference what squeezing leaves of a run of blanks between two characters,
read from a mode on. -/
def spares (m : Mode) (before : Option Char) (b : Text) (c : Char) : Bool :=
  let near := isMark before || isMark (some c)
  b.isEmpty || match m with
  | .outside d => even near b && (!near || quiet d c)
  | .slash d _ => even near b && (!near || quiet d c)
  | .string _ _ _ => !near && (!b.contains '\n' || b == ['\n'])
  | .block _ _ => true
  | .line _ => !b.contains '\n' || !near && (b.dropWhile (· != '\n')).all Mark.spacing.contains

/-- Whether a semicolon behind another and a run of blanks makes no difference in a mode. -/
def idle (m : Mode) (b : Text) : Bool :=
  match m with
  | .outside d => d == Draft.empty
  | .slash _ _ => false
  | .string _ _ _ => false
  | .block _ _ => true
  | .line _ => !b.contains '\n'

/-- Whether squeezing makes no difference to a text read from a mode on, behind a character and a
run of blanks. -/
def harmless (m : Mode) (before : Option Char) (run : Text) : Text → Bool
  | [] => true
  | c :: r =>
    if Text.isBlank c then harmless m before (c :: run) r
    else if c == ';' && before == some ';' then idle m run.reverse && harmless m before [] r
    else spares m before run.reverse c && harmless (m.walk (run.reverse ++ [c])) (some c) [] r

/-- Whether squeezing makes no difference to a source. -/
def Harmless (source : Text) : Prop :=
  harmless (.outside Draft.empty) none [] (Text.unifyBreaks source) = true

instance (source : Text) : Decidable (Harmless source) := inferInstanceAs (Decidable (_ = true))

/-! ## Gaps that do not show -/

theorem put_gapped (d : Draft) (c : Char) (h : Draft.spaces d.gapped [c] = false) :
    d.gapped.put [c] = d.put [c] := by
  by_cases hg : d.gap = true
  · have hd : d.gapped = d := by rw [Draft.gapped, ← hg]
    rw [hd]
  · have hn : d.spaces [c] = false := by simp [Draft.spaces_eq, hg]
    rw [Draft.put, Draft.put, h, hn]
    rfl

theorem mark_gapped (d : Draft) (c : Char) (h : quiet d c = true) :
    d.gapped.mark 1 c = d.mark 1 c := by
  simp only [quiet, Bool.or_eq_true, Bool.and_eq_true, beq_iff_eq, Bool.not_eq_true'] at h
  rcases h with (((hg | rfl) | rfl) | ⟨rfl, hd⟩) | hs
  · have hd : d.gapped = d := by rw [Draft.gapped, ← hg]
    rw [hd]
  · rfl
  · rfl
  · have hd' : d.gapped.depth = 0 := hd
    have ho : ';' ∉ Mark.openers := by decide
    have hc : ';' ∉ Mark.closers := by decide
    simp only [Draft.mark, List.contains_iff_mem, ho, hc, hd, hd']
    rfl
  · by_cases hc : Mark.closers.contains c = true
    · have ho : c ∉ Mark.openers := by
        intro ho
        simp only [Mark.openers, List.mem_cons, List.not_mem_nil, or_false] at ho
        rcases ho with rfl | rfl <;> exact absurd hc (by decide)
      rw [if_pos hc] at hs
      have hp := put_gapped { d with depth := d.depth - 1 } c hs
      simp only [Draft.mark, List.contains_iff_mem, ho, if_false]
      rw [if_pos (by simpa using hc), if_pos (by simpa using hc)]
      exact congrArg (fun e => (⟨e, [], []⟩ : Outcome)) hp
    · rw [if_neg hc] at hs
      have hp := put_gapped d c hs
      simp only [Draft.mark, hp, if_neg hc]
      rfl

theorem enter_gapped (d : Draft) (c : Char) (hb : Text.isBlank c = false) (h : quiet d c = true) :
    Mode.enter d.gapped c = Mode.enter d c := by
  have hs : c ∉ Mark.spacing := fun hm =>
    Bool.noConfusion (hb.symm.trans (Mark.spacing_blank c hm))
  have hm := mark_gapped d c h
  have hp : c ∈ Mark.quotes ∨ c = '/' → d.gapped.put [c] = d.put [c] := by
    intro hq
    have he : d.mark 1 c = ⟨d.put [c], [], []⟩ ∧
        d.gapped.mark 1 c = ⟨d.gapped.put [c], [], []⟩ := by
      simp only [Mark.quotes, List.mem_cons, List.not_mem_nil, or_false] at hq
      rcases hq with (rfl | rfl) | rfl <;> simp [Draft.mark, Mark.openers, Mark.closers]
    rw [he.1, he.2] at hm
    exact congrArg Outcome.draft hm
  simp only [Mode.enter, List.contains_iff_mem, hs, if_false]
  split_ifs with hq hl
  · rw [hp (Or.inl hq)]
  · obtain rfl : c = '/' := by simpa using hl
    rw [hp (Or.inr rfl)]
    rfl
  · rw [hm]

/-! ## Runs of blanks -/

theorem enter_spacing (d : Draft) (c : Char) (h : c ∈ Mark.spacing) :
    Mode.enter d c = (.outside d.gapped, []) := by
  simp only [Mark.spacing, List.mem_cons, List.not_mem_nil, or_false] at h
  rcases h with rfl | rfl | rfl <;> rfl

theorem walk_spacing (d : Draft) (b : Text) (hn : b ≠ []) (h : ∀ c ∈ b, c ∈ Mark.spacing) :
    Mode.walk (.outside d) b = .outside d.gapped := by
  induction b generalizing d with
  | nil => exact absurd rfl hn
  | cons c b ih =>
    have hc : Mode.feed (.outside d) c = (.outside d.gapped, []) :=
      enter_spacing d c (h c (by simp))
    rw [Mode.walk, List.foldl_cons, hc]
    by_cases hb : b = []
    · rw [hb]
      rfl
    · exact ih d.gapped hb fun a ha => h a (by simp [ha])

theorem walk_slash (d e : Draft) (b : Text) (hn : b ≠ []) (h : ∀ c ∈ b, Text.isBlank c = true) :
    Mode.walk (.slash d e) b = Mode.walk (.outside d) b := by
  obtain ⟨c, r, rfl⟩ := List.exists_cons_of_ne_nil hn
  have hc := h c (by simp)
  have hs := Text.ne_of_isBlank c '*' hc (by decide)
  have hl := Text.ne_of_isBlank c '/' hc (by decide)
  have hf : Mode.feed (.slash d e) c = Mode.feed (.outside d) c := by simp [Mode.feed, hs, hl]
  rw [Mode.walk, List.foldl_cons, hf]
  rfl

theorem walk_block (d : Draft) (star : Bool) (b : Text) (hn : b ≠ [])
    (h : ∀ c ∈ b, Text.isBlank c = true) : Mode.walk (.block d star) b = .block d false := by
  induction b generalizing star with
  | nil => exact absurd rfl hn
  | cons c b ih =>
    have hc := h c (by simp)
    have hs := Text.ne_of_isBlank c '*' hc (by decide)
    have hl := Text.ne_of_isBlank c '/' hc (by decide)
    have hf : Mode.feed (.block d star) c = (.block d false, []) := by simp [Mode.feed, hs, hl]
    rw [Mode.walk, List.foldl_cons, hf]
    by_cases hb : b = []
    · rw [hb]
      rfl
    · exact ih false hb fun a ha => h a (by simp [ha])

theorem walk_line (d : Draft) (b : Text) (h : '\n' ∉ b) : Mode.walk (.line d) b = .line d := by
  induction b with
  | nil => rfl
  | cons c b ih =>
    rw [List.mem_cons, not_or] at h
    have hf : Mode.feed (.line d) c = (.line d, []) := by simp [Mode.feed, Ne.symm h.1]
    rw [Mode.walk, List.foldl_cons, hf]
    exact ih h.2

/-- A line break ends a comment, and more blanks behind it add nothing to the gap. -/
theorem walk_line_break (d : Draft) (b : Text) (hg : d.gap = true) (hn : '\n' ∈ b)
    (h : ∀ c ∈ b.dropWhile (· != '\n'), c ∈ Mark.spacing) :
    Mode.walk (.line d) b = .outside d := by
  have hd : d.gapped = d := by rw [Draft.gapped, ← hg]
  induction b with
  | nil => simp at hn
  | cons c b ih =>
    by_cases hc : c = '\n'
    · subst hc
      have hf : Mode.feed (.line d) '\n' = (.outside d, []) := rfl
      rw [Mode.walk, List.foldl_cons, hf]
      by_cases hb : b = []
      · rw [hb]
        rfl
      · have hw := walk_spacing d b hb fun a ha => h a (by simp [ha])
        rw [hd] at hw
        exact hw
    · have hf : Mode.feed (.line d) c = (.line d, []) := by simp [Mode.feed, hc]
      have hi := ih ((List.mem_cons.mp hn).resolve_left (Ne.symm hc)) (by simpa [hc] using h)
      rw [Mode.walk, List.foldl_cons, hf]
      exact hi

/-- What a mode says of the character before. -/
def Fits : Mode → Option Char → Prop
  | .slash _ e, before => before = some '/' ∧ e.gap = true
  | .block _ star, before => star = true → before = some '*'
  | .line d, _ => d.gap = true
  | _, _ => True

theorem fits_enter (d : Draft) (c : Char) : Fits (Mode.enter d c).1 (some c) := by
  simp only [Mode.enter]
  split_ifs with hq hl
  · trivial
  · exact ⟨congrArg some (by simpa using hl), rfl⟩
  · trivial
  · trivial

theorem fits_feed (m : Mode) (before : Option Char) (c : Char) (h : Fits m before) :
    Fits (m.feed c).1 (some c) := by
  cases m with
  | outside d => exact fits_enter d c
  | slash d e =>
    simp only [Mode.feed]
    split_ifs
    · intro hs
      exact absurd hs (by simp)
    · exact h.2
    · exact fits_enter d c
  | string d q escaped =>
    cases escaped with
    | true => trivial
    | false =>
      simp only [Mode.feed]
      split_ifs <;> trivial
  | block d star =>
    simp only [Mode.feed]
    split_ifs
    · trivial
    · intro hs
      exact congrArg some (by simpa using hs)
  | line d =>
    simp only [Mode.feed]
    split_ifs
    · trivial
    · exact h

theorem fits_walk (m : Mode) (before : Option Char) (t : Text) (h : Fits m before) :
    ∃ b, Fits (m.walk t) b := by
  induction t generalizing m before with
  | nil => exact ⟨before, h⟩
  | cons c t ih => exact ih (m.feed c).1 (some c) (fits_feed m before c h)

/-! ## In step -/

theorem stays_blank (before after : Option Char) (b kept : Text)
    (hb : ∀ c ∈ b, Text.isBlank c = true) (h : Stays before b kept after) :
    ∀ c ∈ kept, Text.isBlank c = true := by
  rw [Stays] at h
  split at h
  · simp [h]
  · rcases h with rfl | ⟨-, rfl⟩
    · exact hb
    · simpa using (by decide : Text.isBlank '\n' = true)

theorem outside_spared (d : Draft) (before : Option Char) (b kept : Text) (c : Char)
    (hn : b ≠ []) (hc : Text.isBlank c = false)
    (he : even (isMark before || isMark (some c)) b = true)
    (hq : (isMark before || isMark (some c)) = true → quiet d c = true)
    (hk : Stays before b kept (some c)) :
    Mode.feed (Mode.walk (.outside d) b) c = Mode.feed (Mode.walk (.outside d) kept) c := by
  rw [Stays] at hk
  by_cases hm : (isMark before || isMark (some c)) = true
  · rw [if_pos hm] at hk
    have hs : ∀ a ∈ b, a ∈ Mark.spacing := by simpa [even, hm] using he
    rw [hk, walk_spacing d b hn hs]
    exact enter_gapped d c hc (hq hm)
  · rw [if_neg hm] at hk
    rcases hk with rfl | ⟨hl, rfl⟩
    · rfl
    · have hs : ∀ a ∈ b, a ∈ Mark.spacing := by simpa [even, hl] using he
      rw [walk_spacing d b hn hs]
      rfl

/-- A run is left out altogether only next to a mark. -/
theorem near_of_stays_nil (before after : Option Char) (b : Text) (hn : b ≠ [])
    (h : Stays before b [] after) : isMark before = true ∨ isMark after = true := by
  rw [Stays] at h
  split at h
  · next hm => simpa using hm
  · rcases h with h | ⟨-, h⟩
    · exact absurd h.symm hn
    · simp at h

theorem ne_of_isMark (c : Char) (h : isMark (some c) = true) : c ≠ '*' ∧ c ≠ '/' := by
  constructor <;> rintro rfl <;> exact absurd h (by decide)

/-- Behind a run of blanks that is spared the next character does the same as without the blanks
that are left out. -/
theorem feed_spared (m : Mode) (before : Option Char) (b kept : Text) (c : Char)
    (hf : Fits m before) (hb : ∀ a ∈ b, Text.isBlank a = true) (hc : Text.isBlank c = false)
    (hs : spares m before b c = true) (hk : Stays before b kept (some c)) :
    (m.walk b).feed c = (m.walk kept).feed c := by
  have hkb := stays_blank before (some c) b kept hb hk
  by_cases hn : b = []
  · subst hn
    rw [Stays] at hk
    split at hk
    · rw [hk]
    · rcases hk with rfl | ⟨hl, -⟩
      · rfl
      · simp at hl
  have he : b.isEmpty = false := by simpa using hn
  simp only [spares, he, Bool.false_or] at hs
  cases m with
  | outside d =>
    simp only [Bool.and_eq_true, Bool.or_eq_true, Bool.not_eq_true'] at hs
    exact outside_spared d before b kept c hn hc hs.1
      (fun hm => hs.2.resolve_left (by simp [hm])) hk
  | slash d e =>
    simp only [Bool.and_eq_true, Bool.or_eq_true, Bool.not_eq_true'] at hs
    have ho := outside_spared d before b kept c hn hc hs.1
      (fun hm => hs.2.resolve_left (by simp [hm])) hk
    rw [walk_slash d e b hn hb, ho]
    by_cases hz : kept = []
    · subst hz
      have hm : isMark (some c) = true := by
        rcases near_of_stays_nil before (some c) b hn hk with hm | hm
        · rw [hf.1] at hm
          exact absurd hm (by decide)
        · exact hm
      obtain ⟨hs, hl⟩ := ne_of_isMark c hm
      simp [Mode.walk, Mode.feed, hs, hl]
    · rw [walk_slash d e kept hz hkb]
  | string d q escaped =>
    simp only [Bool.and_eq_true, Bool.or_eq_true, Bool.not_eq_true', beq_iff_eq] at hs
    rw [Stays, hs.1] at hk
    rcases hk with rfl | ⟨hl, rfl⟩
    · rfl
    · have hb' := hs.2.resolve_left (by simpa using hl)
      rw [hb']
  | block d star =>
    rw [walk_block d star b hn hb]
    by_cases hz : kept = []
    · subst hz
      cases star with
      | false => rfl
      | true =>
        have hm : isMark (some c) = true := by
          rcases near_of_stays_nil before (some c) b hn hk with hm | hm
          · rw [hf rfl] at hm
            exact absurd hm (by decide)
          · exact hm
        simp [Mode.walk, Mode.feed, (ne_of_isMark c hm).2]
    · rw [walk_block d star kept hz hkb]
  | line d =>
    by_cases hl : '\n' ∈ b
    · simp only [List.contains_iff_mem.mpr hl, Bool.not_true, Bool.false_or, Bool.and_eq_true,
        Bool.not_eq_true', List.all_eq_true, List.contains_iff_mem] at hs
      rw [Stays, hs.1] at hk
      rcases hk with rfl | ⟨-, rfl⟩
      · rfl
      · rw [walk_line_break d b hf hl hs.2]
        rfl
    · have hnk : '\n' ∉ kept := by
        rw [Stays] at hk
        split at hk
        · simp [hk]
        · rcases hk with rfl | ⟨hm, -⟩
          · exact hl
          · exact absurd hm hl
      rw [walk_line d b hl, walk_line d kept hnk]

theorem walk_blanks_outside (d : Draft) (b : Text) (hb : ∀ a ∈ b, Text.isBlank a = true) :
    ∃ e, Mode.walk (.outside d) b = .outside e ∧ e.text = d.text ∧ e.depth = d.depth := by
  induction b generalizing d with
  | nil => exact ⟨d, rfl, rfl, rfl⟩
  | cons c b ih =>
    obtain ⟨e, he, ht, hd⟩ := Mode.enter_blank d c (hb c (by simp))
    have hf : Mode.feed (.outside d) c = (.outside e, []) := he
    obtain ⟨e', he', ht', hd'⟩ := ih e fun a ha => hb a (by simp [ha])
    rw [Mode.walk, List.foldl_cons, hf]
    exact ⟨e', he', ht'.trans ht, hd'.trans hd⟩

/-- An idle semicolon ends nothing and leaves the mode as it was. -/
theorem feed_idle (m : Mode) (b : Text) (hf : Fits m (some ';'))
    (hb : ∀ a ∈ b, Text.isBlank a = true) (h : idle m b = true) :
    (m.walk b).feed ';' = (m, []) := by
  cases m with
  | outside d =>
    obtain rfl : d = Draft.empty := by simpa [idle] using h
    obtain ⟨e, he, ht, hd⟩ := walk_blanks_outside Draft.empty b hb
    rw [he]
    have hd0 : e.depth = 0 := hd
    have ht0 : e.text = [] := ht
    simp [Mode.feed, Mode.enter, Mark.quotes, Mark.spacing, Draft.mark, Mark.openers, Mark.closers,
      hd0, Draft.declarations, Draft.declaration?, ht0, Outcome.gist]
  | slash d e => simp [idle] at h
  | string d q escaped => simp [idle] at h
  | block d star =>
    have hs : star = false := by
      cases star with
      | false => rfl
      | true => exact absurd (hf rfl) (by simp)
    subst hs
    by_cases hn : b = []
    · rw [hn]
      rfl
    · rw [walk_block d false b hn hb]
      rfl
  | line d =>
    rw [walk_line d b (by simpa [idle] using h)]
    rfl

theorem harmless_cons (m : Mode) (before : Option Char) (run : Text) (c : Char) (r : Text) :
    harmless m before run (c :: r) =
      if Text.isBlank c then harmless m before (c :: run) r
      else if c == ';' && before == some ';' then idle m run.reverse && harmless m before [] r
      else spares m before run.reverse c && harmless (m.walk (run.reverse ++ [c])) (some c) [] r :=
  rfl

theorem harmless_blanks (m : Mode) (before : Option Char) (run b t : Text)
    (hb : ∀ a ∈ b, Text.isBlank a = true) :
    harmless m before run (b ++ t) = harmless m before (b.reverse ++ run) t := by
  induction b generalizing run with
  | nil => rfl
  | cons c b ih =>
    rw [List.cons_append, harmless_cons, if_pos (hb c (by simp)),
      ih _ fun a ha => hb a (by simp [ha])]
    simp

/-- A text and what is left of it come to the same, read from the same mode. -/
theorem run_thins (m : Mode) (before : Option Char) (t u : Text) (h : Thins before t u)
    (hf : Fits m before) (hh : harmless m before [] t = true) : m.run t = m.run u := by
  induction h generalizing m with
  | done before b kept hb hk => rw [Mode.run_blank_end m b hb, Mode.run_blank_end m kept hk]
  | drop b t u hb h ih =>
    rw [harmless_blanks m _ [] b _ hb, harmless_cons] at hh
    have hn : Text.isBlank ';' = false := by decide
    simp only [hn, List.append_nil, List.reverse_reverse, beq_self_eq_true, Bool.and_self, if_true,
      Bool.false_eq_true, if_false, Bool.and_eq_true] at hh
    rw [Mode.run_blanks m b _ hb, Mode.run, feed_idle m b hf hb hh.1]
    exact ih m hf hh.2
  | keep before b kept t u c hb hc hs hk h ih =>
    have hd : ¬ (c == ';' && before == some ';') = true := by simpa [and_comm] using hs
    rw [harmless_blanks m _ [] b _ hb, harmless_cons, if_neg (by simp [hc]), if_neg hd,
      List.append_nil, List.reverse_reverse, Bool.and_eq_true] at hh
    have hkb := stays_blank before (some c) b kept hb hk
    have he := feed_spared m before b kept c hf hb hc hh.1 hk
    rw [Mode.run_blanks m b _ hb, Mode.run_blanks m kept _ hkb, Mode.run, Mode.run, ← he]
    have hw : m.walk (b ++ [c]) = ((m.walk b).feed c).1 := by simp [Mode.walk]
    obtain ⟨a, ha⟩ := fits_walk m before b hf
    rw [hw] at hh
    rw [ih _ (fits_feed _ a c ha) hh.2]

/-- A harmless source is read the same squeezed. -/
theorem statements_squeeze (source : Text) (h : Harmless source) :
    (readSource (squeeze source)).statements.map Statement.unplaced =
      (readSource source).statements.map Statement.unplaced := by
  have hr := run_thins (.outside Draft.empty) none _ _ (thins_squeeze source) trivial h
  have hs := Mode.run_eq_gist 0 Draft.empty (Text.unifyBreaks source) rfl
  have hq := Mode.run_eq_gist 0 Draft.empty (Text.unifyBreaks (squeeze source)) rfl
  exact (hq.symm.trans (hr.symm.trans hs))

/-- A harmless source comes to the same css squeezed, and as a template of one chunk. -/
theorem squeeze_is_transparent (source scope : Text) (prior : Prior) (settings : Settings)
    (h : Harmless source) :
    (unnest (squeeze source) scope settings).text = (unnest source scope settings).text ∧
      (Template.compile ⟨[some source], []⟩ scope prior settings).text =
        (unnest source scope settings).text := by
  have hu := unnest_text_congr (squeeze source) source scope settings (statements_squeeze source h)
  have ht : (Template.nested ⟨[some source], []⟩ prior).text = squeeze source := by
    simp [Template.nested, Template.fragments, Template.interleave, Fragment.rendered]
  exact ⟨hu, by rw [Template.text_compile, ht, hu]⟩

/-- A string loses the blanks next to its colon, and the comment that loses its line break swallows
the declaration behind it. -/
theorem squeeze_shows_in_string_and_comment :
    (unnest "content:\"a : b\"; // note;\nmargin:0;".toList ".s".toList Settings.standard).text =
        ".s\x7bcontent:\"a : b\"; margin:0;\x7d".toList ∧
      (Template.compile ⟨[some "content:\"a : b\"; // note;\nmargin:0;".toList], []⟩ ".s".toList []
        Settings.standard).text = ".s\x7bcontent:\"a:b\";\x7d".toList := by
  decide +kernel

theorem squeeze_is_transparent_to_comment :
    Harmless "a \x7b // b\n c : 'd  e' ; ; f : g( 1 + 2 )".toList ∧
      (unnest (squeeze "a \x7b // b\n c : 'd  e' ; ; f : g( 1 + 2 )".toList) ".s".toList
        Settings.standard).text =
      (unnest "a \x7b // b\n c : 'd  e' ; ; f : g( 1 + 2 )".toList ".s".toList
        Settings.standard).text := by
  have h : Harmless "a \x7b // b\n c : 'd  e' ; ; f : g( 1 + 2 )".toList := by
    decide +kernel
  exact ⟨h, (squeeze_is_transparent _ ".s".toList [] Settings.standard h).1⟩

end NestedCss.Squeeze
