import Mathlib.Data.List.Chain
import Mathlib.Data.List.Destutter
import NestedCss.Proofs.Thinning

/-!
# Squeezed texts

A text is squeezed when no blank stands next to a mark, no semicolon behind another, and every run
of blanks with a line break in it is that line break alone. Whether it is can be seen from each pair
of neighbours. Squeezing changes no squeezed text and makes every text squeezed, so that one
application is enough. It takes away blanks and repeated semicolons and nothing else.
-/

set_option autoImplicit false

namespace NestedCss.Squeeze

structure Squeezed (t : Text) : Prop where
  bare_before : ∀ a b, [a, b] <:+: t → b ∈ marks → Text.isBlank a = false
  bare_behind : ∀ a b, [a, b] <:+: t → a ∈ marks → Text.isBlank b = false
  single : ¬ [';', ';'] <:+: t
  folded : ∀ run, run <:+: t → (∀ c ∈ run, Text.isBlank c = true) → '\n' ∈ run → run = ['\n']

/-- What a text says: all but its blanks, with one semicolon for several in a row. -/
def substance (t : Text) : Text :=
  (t.filter (!Text.isBlank ·)).destutter fun a b => ¬ (a = ';' ∧ b = ';')

/-- Whether the second character may stand right behind the first in a squeezed text. -/
structure Follows (a b : Char) : Prop where
  bare_before : Text.isBlank a = true → b ∉ marks
  bare_behind : a ∈ marks → Text.isBlank b = false
  single : ¬ (a = ';' ∧ b = ';')
  folded : Text.isBlank a = true → Text.isBlank b = true → a ≠ '\n' ∧ b ≠ '\n'

theorem solid_mark (c : Char) (h : c ∈ marks) : Text.isBlank c = false := by
  have hm : ∀ c ∈ marks, Text.isBlank c = false := by decide
  exact hm c h

theorem isMark_iff (c : Option Char) : isMark c = true ↔ ∃ a ∈ marks, c = some a := by
  cases c <;> simp [isMark]

/-! ## Neighbours -/

/-- A run of blanks that holds a line break has no room for another blank. -/
theorem run_of_follows (run : Text) (h : run.IsChain Follows)
    (hb : ∀ c ∈ run, Text.isBlank c = true) (hn : '\n' ∈ run) : run = ['\n'] := by
  obtain ⟨s, u, rfl⟩ := List.append_of_mem hn
  obtain ⟨-, hu, hs⟩ := List.isChain_append.mp h
  have hl : Text.isBlank '\n' = true := by decide
  have hs' : s = [] := by
    rcases List.eq_nil_or_concat s with rfl | ⟨s, a, rfl⟩
    · rfl
    · have ha := hs a (by simp) '\n' (by simp)
      exact absurd rfl (ha.folded (hb a (by simp)) hl).2
  have hu' : u = [] := by
    cases u with
    | nil => rfl
    | cons b u =>
      have hab := (List.isChain_cons_cons.mp hu).1
      exact absurd rfl (hab.folded hl (hb b (by simp))).1
  rw [hs', hu']
  rfl

theorem follows_of_pair (t : Text) (h : t.IsChain Follows) (a b : Char) (hi : [a, b] <:+: t) :
    Follows a b :=
  List.isChain_pair.mp <| List.IsChain.infix h hi

theorem squeezed_of_follows (t : Text) (h : t.IsChain Follows) : Squeezed t where
  bare_before a b hi hb := by
    by_contra ha
    exact (follows_of_pair t h a b hi).bare_before (by simpa using ha) hb
  bare_behind a b hi := (follows_of_pair t h a b hi).bare_behind
  single hi := (follows_of_pair t h ';' ';' hi).single ⟨rfl, rfl⟩
  folded run hi := run_of_follows run <| List.IsChain.infix h hi

theorem follows_of_squeezed (t : Text) (h : Squeezed t) : t.IsChain Follows := by
  rw [List.isChain_iff_forall_rel_of_append_cons_cons]
  rintro a b s u rfl
  have hi : [a, b] <:+: s ++ a :: b :: u := ⟨s, u, by simp⟩
  refine ⟨fun ha hb => ?_, h.bare_behind a b hi, ?_, fun ha hb => ?_⟩
  · exact Bool.noConfusion (ha.symm.trans (h.bare_before a b hi hb))
  · rintro ⟨rfl, rfl⟩
    exact h.single hi
  · have hr : ¬ '\n' ∈ [a, b] := fun hn =>
      absurd (h.folded [a, b] hi (by simp [ha, hb]) hn) (by simp)
    rw [List.mem_cons, List.mem_singleton, not_or] at hr
    exact ⟨Ne.symm hr.1, Ne.symm hr.2⟩

/-! ## One pass -/

theorem follows_of_solid (a b : Char) (ha : Text.isBlank a = false) (hb : Text.isBlank b = false)
    (h : ¬ (a = ';' ∧ b = ';')) : Follows a b :=
  ⟨by simp [ha], fun _ => hb, h, by simp [ha]⟩

theorem unmarked_follows (a b : Char) (hb : Text.isBlank b = false) (hm : b ∉ marks) :
    Follows a b := by
  refine ⟨fun _ => hm, fun _ => hb, ?_, by simp [hb]⟩
  rintro ⟨-, rfl⟩
  exact hm (by decide)

theorem follows_unmarked (a b : Char) (ha : Text.isBlank a = false) (hm : a ∉ marks) :
    Follows a b := by
  refine ⟨by simp [ha], fun h => absurd h hm, ?_, by simp [ha]⟩
  rintro ⟨rfl, -⟩
  exact hm (by decide)

theorem follows_foldedRun (run : Text) (h : ∀ c ∈ run, Text.isBlank c = true) :
    (foldedRun run).IsChain Follows := by
  rw [foldedRun]
  split
  · exact List.isChain_singleton _
  · next hn =>
    have hn' : '\n' ∉ run := by simpa using hn
    rw [List.isChain_iff_forall_rel_of_append_cons_cons]
    intro a b s u hr
    have hm : ∀ c ∈ s ++ a :: b :: u, Text.isBlank c = true ∧ c ≠ '\n' := by
      intro c hc
      have hc' : c ∈ run := List.mem_reverse.mp (hr ▸ hc)
      exact ⟨h c hc', ne_of_mem_of_not_mem hc' hn'⟩
    obtain ⟨ha, han⟩ := hm a (by simp)
    obtain ⟨hb, hbn⟩ := hm b (by simp)
    refine ⟨fun _ hm => ?_, fun hm => ?_, fun hs => ?_, fun _ _ => ⟨han, hbn⟩⟩
    · exact Bool.noConfusion (hb.symm.trans (solid_mark b hm))
    · exact Bool.noConfusion (ha.symm.trans (solid_mark a hm))
    · rw [hs.1] at ha
      exact absurd ha (by decide)

/-- What stays of a run of blanks is in its place between two characters that are not blank. -/
theorem follows_settled (before : Option Char) (run u : Text)
    (hb : ∀ a ∈ before, Text.isBlank a = false) (hr : ∀ a ∈ run, Text.isBlank a = true)
    (hu : ∀ c ∈ u.head?, Text.isBlank c = false)
    (hs : ¬ (before = some ';' ∧ u.head? = some ';')) (h : u.IsChain Follows) :
    (before.toList ++ (settled before run u.head? ++ u)).IsChain Follows := by
  have hbefore : before.toList.IsChain Follows := by cases before <;> simp
  have hmark : ∀ a, isMark (some a) = false → a ∉ marks := fun a ha => by simpa [isMark] using ha
  rw [settled]
  split
  · -- nothing stays, and the two characters are neighbours
    rw [List.nil_append]
    refine hbefore.append h fun a ha c hc => ?_
    obtain rfl : before = some a := by cases before <;> simp_all
    exact follows_of_solid a c (hb a rfl) (hu c hc) fun he => hs ⟨by rw [he.1], he.2 ▸ hc⟩
  · next hm =>
    rw [Bool.or_eq_true, not_or, Bool.not_eq_true, Bool.not_eq_true] at hm
    have hlast : ∀ a ∈ (foldedRun run).getLast?, ∀ c ∈ u.head?, Follows a c := by
      intro a _ c hc
      rw [Option.mem_def.mp hc] at hm
      exact unmarked_follows a c (hu c hc) (hmark c hm.2)
    refine hbefore.append ((follows_foldedRun run hr).append h hlast) fun a ha c _ => ?_
    obtain rfl : before = some a := by cases before <;> simp_all
    exact follows_unmarked a c (hb a rfl) (hmark a hm.1)

theorem follows_squeezeFrom (before : Option Char) (run t : Text)
    (hb : ∀ a ∈ before, Text.isBlank a = false) (hr : ∀ a ∈ run, Text.isBlank a = true) :
    (before.toList ++ squeezeFrom before run t).IsChain Follows := by
  induction t generalizing before run with
  | nil =>
    have hk := follows_settled before run [] hb hr (by simp) (by simp) (by simp)
    simpa [squeezeFrom] using hk
  | cons c r ih =>
    rw [squeezeFrom]
    split
    · next hc => exact ih before (c :: run) hb (by simpa [hc] using hr)
    · next hc =>
      have hc' : ∀ a ∈ some c, Text.isBlank a = false := by simpa using hc
      have hi := ih (some c) [] hc' (by simp)
      split
      · exact ih before [] hb (by simp)
      · next hs =>
        refine follows_settled before run (c :: squeezeFrom (some c) [] r) hb hr (by simpa using hc)
          ?_ (by simpa using hi)
        simpa [and_comm] using hs

/-- In a squeezed text a run of blanks is what stays of it. -/
theorem settled_of_follows (before : Option Char) (run u : Text)
    (hr : ∀ a ∈ run, Text.isBlank a = true)
    (h : (before.toList ++ (run.reverse ++ u)).IsChain Follows) :
    settled before run u.head? = run.reverse := by
  obtain ⟨-, hru, hbefore⟩ := List.isChain_append.mp h
  obtain ⟨hrun, -, hu⟩ := List.isChain_append.mp hru
  have hr' : ∀ a ∈ run.reverse, Text.isBlank a = true := by simpa using hr
  rw [settled]
  split
  · next hm =>
    rw [eq_comm, List.eq_nil_iff_forall_not_mem]
    rcases Bool.or_eq_true_iff.mp hm with hm | hm
    · obtain ⟨a, ha, rfl⟩ := (isMark_iff before).mp hm
      cases hk : run.reverse with
      | nil => simp
      | cons b k =>
        have hab := hbefore a (by simp) b (by simp [hk])
        exact Bool.noConfusion ((hr' b (by simp [hk])).symm.trans (hab.bare_behind ha))
    · obtain ⟨c, hm, hc⟩ := (isMark_iff u.head?).mp hm
      rcases List.eq_nil_or_concat run.reverse with hk | ⟨k, a, hk⟩
      · simp [hk]
      · have hac := hu a (by simp [hk]) c hc
        exact absurd hm (hac.bare_before (hr' a (by simp [hk])))
  · rw [foldedRun]
    split
    · next hn => exact (run_of_follows run.reverse hrun hr' (by simpa using hn)).symm
    · rfl

/-- A squeezed text stays as it is. -/
theorem squeezeFrom_of_follows (before : Option Char) (run t : Text)
    (hr : ∀ a ∈ run, Text.isBlank a = true)
    (h : (before.toList ++ (run.reverse ++ t)).IsChain Follows) :
    squeezeFrom before run t = run.reverse ++ t := by
  induction t generalizing before run with
  | nil =>
    have hk := settled_of_follows before run [] hr h
    rw [squeezeFrom, List.append_nil, ← hk, List.head?_nil]
  | cons c r ih =>
    have hk := settled_of_follows before run (c :: r) hr h
    rw [squeezeFrom]
    split
    · next hc =>
      have hi := ih before (c :: run) (by simpa [hc] using hr) (by simpa using h)
      simpa using hi
    · next hc =>
      obtain ⟨-, hru, hbefore⟩ := List.isChain_append.mp h
      have hi := ih (some c) [] (by simp) (by simpa using (List.isChain_append.mp hru).2.1)
      split
      · next hs =>
        -- two semicolons are no neighbours, and no blanks stand between them
        rw [Bool.and_eq_true, beq_iff_eq, beq_iff_eq] at hs
        obtain ⟨rfl, rfl⟩ := hs
        have hn : run.reverse = [] := by simpa [settled, isMark_semicolon] using hk.symm
        rw [hn] at hbefore
        exact absurd ⟨rfl, rfl⟩ (hbefore ';' (by simp) ';' (by simp)).single
      · rw [List.head?_cons] at hk
        rw [hk, hi]
        rfl

/-! ## What is said -/

theorem mergeFrom_cons (behind : Bool) (c : Char) (r : Text) :
    mergeFrom behind (c :: r) =
      if (c == ';' && behind) = true then mergeFrom true r else c :: mergeFrom (c == ';') r := by
  rw [mergeFrom]
  by_cases hc : c = ';'
  · simp [hc]
  · have hc' : (c == ';') = false := by simpa using hc
    simp [hc']

theorem destutter'_eq_mergeFrom (c : Char) (t : Text) :
    t.destutter' (fun a b => ¬ (a = ';' ∧ b = ';')) c = c :: mergeFrom (c == ';') t := by
  induction t generalizing c with
  | nil => rfl
  | cons d t ih =>
    rw [List.destutter'_cons, ih, ih, mergeFrom_cons]
    by_cases hc : c = ';' <;> by_cases hd : d = ';' <;> simp [hc, hd]

theorem substance_eq (t : Text) : substance t = mergeSemicolons (t.filter (!Text.isBlank ·)) := by
  rw [substance, mergeSemicolons]
  cases t.filter (!Text.isBlank ·) with
  | nil => rfl
  | cons c r =>
    rw [List.destutter_cons', destutter'_eq_mergeFrom, mergeFrom_cons]
    simp

theorem filter_blanks (b : Text) (h : ∀ c ∈ b, Text.isBlank c = true) :
    b.filter (!Text.isBlank ·) = [] := by
  simpa [List.filter_eq_nil_iff] using h

/-- Only blanks and repeated semicolons go. -/
theorem substance_squeezeFrom (before : Option Char) (run t : Text)
    (h : ∀ c ∈ run, Text.isBlank c = true) :
    mergeFrom (before == some ';') ((squeezeFrom before run t).filter (!Text.isBlank ·)) =
      mergeFrom (before == some ';') (t.filter (!Text.isBlank ·)) := by
  induction t generalizing before run with
  | nil => rw [squeezeFrom, filter_blanks _ (blank_settled before none run h), List.filter_nil]
  | cons c r ih =>
    rw [squeezeFrom]
    split
    · next hc =>
      rw [ih before (c :: run) (by simpa [hc] using h), List.filter_cons_of_neg (by simpa using hc)]
    · next hc =>
      rw [List.filter_cons_of_pos (by simpa using hc), mergeFrom_cons]
      split
      · next hs =>
        rw [Bool.and_eq_true] at hs
        rw [ih before [] (by simp), hs.2]
      · next hs =>
        rw [List.filter_append, filter_blanks _ (blank_settled before (some c) run h),
          List.nil_append, List.filter_cons_of_pos (by simpa using hc), mergeFrom_cons, if_neg hs]
        exact congrArg _ (ih (some c) [] (by simp))

theorem substance_squeeze (t : Text) : substance (squeeze t) = substance t := by
  rw [substance_eq, substance_eq, squeeze_eq]
  exact substance_squeezeFrom none [] t (by simp)

/-! ## The normal form -/

theorem squeezed_squeeze (t : Text) : Squeezed (squeeze t) := by
  rw [squeeze_eq]
  exact squeezed_of_follows _ (follows_squeezeFrom none [] t (by simp) (by simp))

theorem squeeze_of_squeezed (t : Text) (h : Squeezed t) : squeeze t = t := by
  rw [squeeze_eq]
  exact squeezeFrom_of_follows none [] t (by simp) (follows_of_squeezed t h)

/-- Squeezing once brings a text into its normal form, which says the same. -/
theorem squeeze_reaches_normal_form (t : Text) :
    squeeze (squeeze t) = squeeze t ∧ Squeezed (squeeze t) ∧
      substance (squeeze t) = substance t :=
  ⟨squeeze_of_squeezed _ (squeezed_squeeze t), squeezed_squeeze t, substance_squeeze t⟩

end NestedCss.Squeeze
