import NestedCss.Proofs.Breaks
import NestedCss.Squeeze

/-!
# Thinning

Squeezing in one pass: before each character that is not blank, the run of blanks between it and
the one before is left out, folded or kept, and a semicolon behind another goes with its run. Seen
behind the unifying of line breaks, each run is left out next to a mark, and otherwise it stays or
becomes a line break that it holds.
-/

set_option autoImplicit false

namespace NestedCss.Squeeze

/-- Whether a character, if there is one, is a mark. -/
def isMark (c : Option Char) : Bool := c.any marks.contains

/-- What stays of a run of blanks, given with the latest first, between two characters. -/
def settled (before : Option Char) (run : Text) (after : Option Char) : Text :=
  if isMark before || isMark after then [] else foldedRun run

/-- Squeezes a text behind a character and a run of blanks. -/
def squeezeFrom (before : Option Char) (run : Text) : Text → Text
  | [] => settled before run none
  | c :: r =>
    if Text.isBlank c then squeezeFrom before (c :: run) r
    else if c == ';' && before == some ';' then squeezeFrom before [] r
    else settled before run (some c) ++ c :: squeezeFrom (some c) [] r

theorem blank_foldedRun (run : Text) (h : ∀ c ∈ run, Text.isBlank c = true) :
    ∀ c ∈ foldedRun run, Text.isBlank c = true := by
  intro c hc
  rw [foldedRun] at hc
  split at hc
  · rw [List.mem_singleton.mp hc]
    decide
  · exact h c (List.mem_reverse.mp hc)

theorem tightenFrom_blanks (atMark : Bool) (run b t : Text)
    (h : ∀ c ∈ b, Text.isBlank c = true) :
    tightenFrom atMark run (b ++ t) = tightenFrom atMark (b.reverse ++ run) t := by
  induction b generalizing run with
  | nil => rfl
  | cons c b ih =>
    rw [List.cons_append, tightenFrom, if_pos (h c (by simp)), ih _ fun a ha => h a (by simp [ha])]
    simp

theorem mergeFrom_blanks (behind : Bool) (b t : Text) (h : ∀ c ∈ b, Text.isBlank c = true) :
    mergeFrom behind (b ++ t) = b ++ mergeFrom (behind && b.isEmpty) t := by
  induction b generalizing behind with
  | nil => simp
  | cons c b ih =>
    have hc := Text.ne_of_isBlank c ';' (h c (by simp)) (by decide)
    have hs : mergeFrom behind (c :: (b ++ t)) = c :: mergeFrom false (b ++ t) := by
      simp [mergeFrom, hc]
    rw [List.cons_append, hs, ih false fun a ha => h a (by simp [ha])]
    simp

theorem tightenFrom_folded (before : Option Char) (run t : Text) (c : Char)
    (h : ∀ a ∈ run, Text.isBlank a = true) (hc : Text.isBlank c = false) :
    tightenFrom (isMark before) [] (foldedRun run ++ c :: t) =
      settled before run (some c) ++ c :: tightenFrom (isMark (some c)) [] t := by
  rw [tightenFrom_blanks _ _ _ _ (blank_foldedRun run h), tightenFrom, hc, settled]
  cases hm : marks.contains c <;> cases hb : isMark before <;> simp_all [isMark]

theorem blank_settled (before after : Option Char) (run : Text)
    (h : ∀ c ∈ run, Text.isBlank c = true) :
    ∀ c ∈ settled before run after, Text.isBlank c = true := by
  rw [settled]
  split
  · simp
  · exact blank_foldedRun run h

theorem isMark_semicolon : isMark (some ';') = true := rfl

/-- The three passes in one. -/
theorem passes_eq (before : Option Char) (run t : Text) (h : ∀ c ∈ run, Text.isBlank c = true) :
    mergeFrom (before == some ';') (tightenFrom (isMark before) [] (foldFrom run t)) =
      squeezeFrom before run t := by
  induction t generalizing before run with
  | nil =>
    have ht : tightenFrom (isMark before) [] (foldFrom run []) = settled before run none := by
      have hr := tightenFrom_blanks (isMark before) [] (foldedRun run) [] (blank_foldedRun run h)
      rw [List.append_nil] at hr
      rw [foldFrom, hr, tightenFrom, settled]
      simp [isMark]
    have hm := mergeFrom_blanks (before == some ';') (settled before run none) []
      (blank_settled before none run h)
    rw [ht, squeezeFrom]
    simpa [mergeFrom] using hm
  | cons c r ih =>
    rw [foldFrom, squeezeFrom]
    by_cases hb : Text.isBlank c = true
    · have hr : ∀ a ∈ c :: run, Text.isBlank a = true := by simpa [hb] using h
      rw [if_pos hb, if_pos hb]
      exact ih before (c :: run) hr
    have hi := ih (some c) [] (by simp)
    rw [if_neg hb, if_neg hb, tightenFrom_folded before run _ c h (by simpa using hb)]
    by_cases hc : c = ';'
    · subst hc
      have he : settled before run (some ';') = [] := by simp [settled, isMark_semicolon]
      rw [he, List.nil_append, List.nil_append, mergeFrom]
      by_cases hs : before = some ';'
      · rw [hs]
        exact hi
      · have hs' : (before == some ';') = false := by simpa using hs
        rw [hs']
        exact congrArg _ hi
    · have hs := blank_settled before (some c) run h
      have hc' : (c == ';') = false := by simpa using hc
      have hn : (some c == some ';') = false := by simpa using hc
      rw [hn] at hi
      rw [mergeFrom_blanks _ _ _ hs, mergeFrom, hc', ← hi]
      rfl

theorem squeeze_eq (t : Text) : squeeze t = squeezeFrom none [] t :=
  passes_eq none [] t (by simp)

/-! ## Behind the unifying of line breaks -/

/-- What may stay of a run of blanks between two characters. -/
def Stays (before : Option Char) (b kept : Text) (after : Option Char) : Prop :=
  if isMark before || isMark after then kept = []
  else kept = b ∨ '\n' ∈ b ∧ kept = ['\n']

/-- Whether the second text is the first without some blanks and semicolons that squeezing takes
away behind a character. -/
inductive Thins : Option Char → Text → Text → Prop where
  | done (before : Option Char) (b kept : Text) (hb : ∀ c ∈ b, Text.isBlank c = true)
      (hk : ∀ c ∈ kept, Text.isBlank c = true) : Thins before b kept
  | drop (b t u : Text) (hb : ∀ c ∈ b, Text.isBlank c = true) (h : Thins (some ';') t u) :
      Thins (some ';') (b ++ ';' :: t) u
  | keep (before : Option Char) (b kept t u : Text) (c : Char)
      (hb : ∀ c ∈ b, Text.isBlank c = true) (hc : Text.isBlank c = false)
      (hs : ¬ (before = some ';' ∧ c = ';')) (hk : Stays before b kept (some c))
      (h : Thins (some c) t u) : Thins before (b ++ c :: t) (kept ++ c :: u)

theorem stays_settled (before after : Option Char) (run : Text) :
    Stays before (Text.unifyBreaks run.reverse) (Text.unifyBreaks (settled before run after))
      after := by
  rw [Stays, settled]
  split
  · rfl
  · rw [foldedRun]
    split
    · next hn => exact Or.inr ⟨Text.mem_unifyBreaks _ (by simpa using hn), rfl⟩
    · exact Or.inl rfl

/-- Squeezing thins a text, also where the line breaks are unified behind it. -/
theorem thins_squeezeFrom (before : Option Char) (run t : Text)
    (h : ∀ c ∈ run, Text.isBlank c = true) :
    Thins before (Text.unifyBreaks (run.reverse ++ t))
      (Text.unifyBreaks (squeezeFrom before run t)) := by
  have hr := Text.blank_unifyBreaks run.reverse (by simpa using h)
  induction t generalizing before run with
  | nil =>
    rw [List.append_nil, squeezeFrom]
    apply Thins.done before _ _ hr
    apply Text.blank_unifyBreaks
    rw [settled]
    split
    · simp
    · exact blank_foldedRun run h
  | cons c r ih =>
    rw [squeezeFrom]
    by_cases hb : Text.isBlank c = true
    · have hc : ∀ a ∈ c :: run, Text.isBlank a = true := by simpa [hb] using h
      rw [if_pos hb]
      have hi := ih before (c :: run) hc
        (Text.blank_unifyBreaks _ fun a ha => hc a (List.mem_reverse.mp ha))
      rwa [List.reverse_cons, List.append_assoc] at hi
    have hb' : Text.isBlank c = false := by simpa using hb
    have hi := fun a => ih a [] (by simp) (by simp [Text.unifyBreaks])
    rw [if_neg hb, Text.unifyBreaks_append run.reverse r c hb']
    by_cases hs : before = some ';' ∧ c = ';'
    · obtain ⟨rfl, rfl⟩ := hs
      exact Thins.drop _ _ _ hr (hi (some ';'))
    · have hn : ¬ (c == ';' && before == some ';') = true := by simpa [and_comm] using hs
      rw [if_neg hn, Text.unifyBreaks_append _ _ c hb']
      exact Thins.keep before _ _ _ _ c hr hb' hs (stays_settled before (some c) run) (hi (some c))

theorem thins_squeeze (t : Text) :
    Thins none (Text.unifyBreaks t) (Text.unifyBreaks (squeeze t)) := by
  rw [squeeze_eq]
  exact thins_squeezeFrom none [] t (by simp)

end NestedCss.Squeeze
