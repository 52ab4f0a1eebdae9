import NestedCss.Proofs.Headers
import NestedCss.Proofs.Joints
import NestedCss.Proofs.Merging

/-!
# What is merged of conditions

What is merged of conditions is a condition: its keyword is that of the first. It is a fair copy
when the parts are fair copies that may stand beside spaces.
-/

set_option autoImplicit false

namespace NestedCss.Condition

/-! ## The kind of what is merged -/

theorem isWord_ascii (c last : Char) (hl : last.toNat < 128) (hc : c.val ≤ last.val)
    (ha : c.isAlpha = true) : Text.isWord c = true := by
  have hn : c.toNat < 128 := Nat.lt_of_le_of_lt (UInt32.le_iff_toNat_le.mp hc) hl
  have hw : c.isAlphanum = true := Bool.or_eq_true_iff.mpr (Or.inl ha)
  rw [Text.isWord, if_pos hn, hw, Bool.true_or]

theorem isWord_lower (c : Char) (h : c.isLower = true) : Text.isWord c = true := by
  have hv : ('a'.val ≤ c.val ∧ c.val ≤ 'z'.val) := by
    have hb : (decide ('a'.val ≤ c.val) && decide (c.val ≤ 'z'.val)) = true := h
    simpa using hb
  exact isWord_ascii c 'z' (by decide) hv.2 (Bool.or_eq_true_iff.mpr (Or.inr h))

theorem isWord_upper (c : Char) (h : c.isUpper = true) : Text.isWord c = true := by
  have hv : ('A'.val ≤ c.val ∧ c.val ≤ 'Z'.val) := of_decide_eq_true h
  exact isWord_ascii c 'Z' (by decide) hv.2 (Bool.or_eq_true_iff.mpr (Or.inl h))

/-- A character that counts as a small letter is a word character. -/
theorem isWord_of_isLetter (c : Char) (h : Prelude.isLetter c = true) :
    Text.isWord c = true := by
  rw [Prelude.isLetter, Prelude.foldLetter] at h
  split_ifs at h with hs hk hi
  · obtain rfl : c = '\u017f' := by simpa using hs
    decide +kernel
  · obtain rfl : c = '\u212a' := by simpa using hk
    decide +kernel
  · have hc : c = '\u0130' ∨ c = '\u0131' := by simpa using hi
    rcases hc with rfl | rfl <;> decide +kernel
  · by_cases hu : c.isUpper = true
    · exact isWord_upper c hu
    · have ht : c.toLower = c := dif_neg fun hv => hu (decide_eq_true hv)
      rw [ht] at h
      exact isWord_lower c h

theorem isWord_of_afterWord (word p s : Text) (hl : p.length = word.length)
    (hw : ∀ w ∈ word, Prelude.isSmall w = true)
    (h : (Prelude.afterWord word (p ++ s)).isSome = true) : ∀ c ∈ p, Text.isWord c = true := by
  induction word generalizing p with
  | nil =>
    obtain rfl := List.length_eq_zero_iff.mp hl
    simp
  | cons w ws ih =>
    cases p with
    | nil => simp
    | cons c p =>
      rw [List.cons_append, Prelude.afterWord] at h
      split at h
      · next hc =>
        have hcw : Text.isWord c = true := by
          apply isWord_of_isLetter
          rw [Prelude.isLetter, beq_iff_eq.mp hc]
          exact hw w (by simp)
        have hp := ih p (by simpa using hl) (fun a ha => hw a (by simp [ha])) h
        simpa using ⟨hcw, hp⟩
      · simp at h

/-- A condition is an at-keyword whose word, in letters that are word characters, ends there. -/
theorem isCondition_iff (t : Text) : Prelude.isCondition t = true ↔
    ∃ word ∈ ["media".toList, "container".toList], ∃ p after, t = '@' :: (p ++ after) ∧
      (∀ s, Prelude.afterWord word (p ++ s) = some s) ∧ p.length = word.length ∧
      after.head?.any Text.isWord = false := by
  constructor
  · intro h
    unfold Prelude.isCondition at h
    split at h
    · next r =>
      obtain ⟨word, hword, hw⟩ := List.any_eq_true.mp h
      split at hw
      · next after ha =>
        obtain ⟨p, hp, hl, hs⟩ := Prelude.afterWord_append word r after ha
        exact ⟨word, hword, p, after, by rw [hp], hs, hl, by simpa using hw⟩
      · simp at hw
    · simp at h
  · rintro ⟨word, hword, p, after, rfl, hs, -, ha⟩
    simp only [Prelude.isCondition]
    refine List.any_eq_true.mpr ⟨word, hword, ?_⟩
    rw [hs]
    simp [ha]

/-- What is merged under a condition begins with its at-keyword. -/
theorem leading_condition (t : Text) (h : Prelude.isCondition t = true) :
    ∃ word ∈ ["media".toList, "container".toList], ∃ p after, t = '@' :: (p ++ after) ∧
      (∀ s, Prelude.afterWord word (p ++ s) = some s) ∧ p.length = word.length ∧
      after.head?.any Text.isWord = false ∧
      leading t = '@' :: (p ++ after.takeWhile Text.isName) := by
  obtain ⟨word, hword, p, after, rfl, hs, hl, ha⟩ := (isCondition_iff t).mp h
  have hsmall : ∀ w ∈ word, Prelude.isSmall w = true := by
    rcases List.mem_cons.mp hword with rfl | hword
    · exact List.all_eq_true.mp (by decide)
    · rw [List.mem_singleton.mp hword]
      exact List.all_eq_true.mp (by decide)
  have hp := isWord_of_afterWord word p after hl hsmall (by rw [hs]; rfl)
  have hne : p ≠ [] := by
    rintro rfl
    rcases List.mem_cons.mp hword with rfl | hword
    · simp at hl
    · rw [List.mem_singleton.mp hword] at hl
      simp at hl
  refine ⟨word, hword, p, after, rfl, hs, hl, ha, ?_⟩
  have ht : (p ++ after).takeWhile Text.isName = p ++ after.takeWhile Text.isName :=
    List.takeWhile_append_of_pos fun c hc => Text.isName_of_isWord c (hp c hc)
  obtain ⟨a, q, rfl⟩ := List.exists_cons_of_ne_nil hne
  rw [leading, keyword?, ht]
  rfl

/-- The at-keyword of a condition stands in it. -/
theorem infix_leading (t : Text) (h : Prelude.isCondition t = true) : leading t <:+: t := by
  obtain ⟨-, -, p, after, rfl, -, -, -, hl⟩ := leading_condition t h
  rw [hl]
  have hp : p ++ after.takeWhile Text.isName <+: p ++ after :=
    (List.prefix_append_right_inj p).mpr (List.takeWhile_prefix _)
  exact (List.cons_prefix_cons.mpr ⟨rfl, hp⟩).isInfix

theorem isCondition_conjoin (t : Text) (ts : List Text) (h : Prelude.isCondition t = true) :
    Prelude.isCondition (conjoin (t :: ts)) = true := by
  obtain ⟨word, hword, p, after, rfl, hs, hl, ha, hk⟩ := leading_condition t h
  have hh := start_joined (('@' :: (p ++ after)) :: ts)
  rw [conjoin_leading, hk]
  generalize joined (('@' :: (p ++ after)) :: ts) = r at hh ⊢
  refine (isCondition_iff _).mpr ⟨word, hword, p, after.takeWhile Text.isName ++ r, ?_, hs, hl, ?_⟩
  · simp
  · have hrw : r.head?.any Text.isWord = false := by
      cases r with
      | nil => rfl
      | cons c r => exact (Bool.or_eq_false_iff.mp hh).1
    cases after with
    | nil => exact hrw
    | cons c after =>
      rw [List.takeWhile_cons]
      split
      · exact ha
      · exact hrw

theorem isCondition_of_kind (t : Text) (h : Prelude.kind t = .condition) :
    Prelude.isCondition t = true := by
  rw [Prelude.kind] at h
  split_ifs at h with _ hi
  exact hi

theorem kind_condition (t : Text) (h : Prelude.isCondition t = true) :
    Prelude.kind t = .condition := by
  obtain ⟨word, hword, p, after, rfl, hs, hl, ha⟩ := (isCondition_iff t).mp h
  have hh : Prelude.Header.of? ('@' :: (p ++ after)) = none := by
    obtain ⟨w, ws, rfl, hwk⟩ : ∃ w ws, word = w :: ws ∧ w ≠ 'k' ∧ w ≠ '-' := by
      rcases List.mem_cons.mp hword with rfl | hword
      · exact ⟨'m', "edia".toList, rfl, by decide, by decide⟩
      · rw [List.mem_singleton.mp hword]
        exact ⟨'c', "ontainer".toList, rfl, by decide, by decide⟩
    obtain ⟨c, p, rfl⟩ := List.exists_cons_of_length_eq_add_one hl
    have hc : Prelude.foldLetter c = w := by
      have hc := hs []
      rw [List.cons_append, Prelude.afterWord] at hc
      split at hc
      · next he => exact beq_iff_eq.mp he
      · simp at hc
    have hd : c ≠ '-' := by
      rintro rfl
      exact hwk.2 hc.symm
    have hv : Prelude.afterVendor Prelude.isLetter (c :: (p ++ after)) = c :: (p ++ after) := by
      rw [Prelude.afterVendor]
      exact fun _ he => hd (List.cons.inj he).1
    have hk : Prelude.afterWord "keyframes".toList (c :: (p ++ after)) = none := by
      have hne : (Prelude.foldLetter c == 'k') = false := by simpa [hc] using hwk.1
      simp [Prelude.afterWord, hne]
    rw [List.cons_append, Prelude.Header.of?, hv, hk]
  simp [Prelude.kind, hh, h]

open NestedCss.Path Scan

/-! ## Fair conditions -/

/-- Whether a text neither begins nor ends in a mark that takes no space beside it. -/
def loose (t : Text) : Bool :=
  !t.head?.any (Mark.tight false).contains && !t.getLast?.any (Mark.tight false).contains

/-- Whether the parts of a condition are fair copies that may stand beside spaces. -/
def Spaced (t : Text) : Prop := ∀ p ∈ conjuncts t, Fair p ∧ loose p = true

instance (t : Text) : Decidable (Spaced t) := inferInstanceAs (Decidable (∀ p ∈ conjuncts t, _))

theorem join_ne_nil (ps : List Text) (hn : ps ≠ []) (h : ∀ p ∈ ps, p ≠ []) :
    Text.join joint ps ≠ [] := by
  match ps with
  | [p] => simpa [Text.join] using h
  | p :: q :: ps =>
    rw [join_joint]
    simp

theorem trim_join (ps : List Text) (h : ∀ p ∈ ps, Text.trim p = p ∧ p ≠ []) :
    Text.trim (Text.join joint ps) = Text.join joint ps := by
  induction ps with
  | nil => rfl
  | cons p ps ih =>
    obtain ⟨ht, hn⟩ := h p (by simp)
    cases ps with
    | nil => simpa [Text.join] using ht
    | cons q ps =>
      have hi := ih fun b hb => h b (by simp [hb])
      have hj := join_ne_nil (q :: ps) (by simp) fun b hb => (h b (by simp [hb])).2
      have hl : (p ++ " and ".toList ++ Text.join joint (q :: ps)).getLast? =
          (Text.join joint (q :: ps)).getLast? := List.getLast?_append_of_ne_nil _ hj
      have he : Text.join joint (p :: q :: ps) =
          p ++ " and ".toList ++ Text.join joint (q :: ps) := by
        rw [join_joint]
        simp
      rw [he, Text.trimmed_iff, hl, List.append_assoc, List.head?_append_of_ne_nil p hn]
      exact ⟨((Text.trimmed_iff p).mp ht).1, ((Text.trimmed_iff _).mp hi).2⟩

/-- The parts of a condition stand in it. -/
theorem infix_part (b : Bool) (t : Text) :
    ∃ p ps, part b t = p :: ps ∧ p <+: t ∧ ∀ q ∈ ps, q <:+: t := by
  fun_induction part b t with
  | case1 => exact ⟨[], [], rfl, List.nil_prefix, by simp⟩
  | case2 b r _ ih =>
    obtain ⟨p, ps, hp, hpr, hps⟩ := ih
    have hs : r <:+ 'a' :: 'n' :: 'd' :: r := ⟨['a', 'n', 'd'], rfl⟩
    refine ⟨[], p :: ps, by rw [hp], List.nil_prefix, fun q hq => ?_⟩
    rcases List.mem_cons.mp hq with rfl | hq
    · exact hpr.isInfix.trans hs.isInfix
    · exact (hps q hq).trans hs.isInfix
  | case3 b r _ ih =>
    obtain ⟨p, ps, hp, hpr, hps⟩ := ih
    exact ⟨'a' :: p, ps, by rw [hp]; rfl, List.cons_prefix_cons.mpr ⟨rfl, hpr⟩,
      fun q hq => (hps q hq).trans (List.suffix_cons _ _).isInfix⟩
  | case4 b c r _ ih =>
    obtain ⟨p, ps, hp, hpr, hps⟩ := ih
    exact ⟨c :: p, ps, by rw [hp]; rfl, List.cons_prefix_cons.mpr ⟨rfl, hpr⟩,
      fun q hq => (hps q hq).trans (List.suffix_cons _ _).isInfix⟩

theorem infix_conjuncts (t p : Text) (h : p ∈ conjuncts t) : p <:+: t := by
  simp only [conjuncts, List.mem_filter, List.mem_map] at h
  obtain ⟨⟨q, hq, rfl⟩, -⟩ := h
  obtain ⟨front, back, hs, -, -⟩ := Path.Watch.trim_split q
  have htr : Text.trim q <:+: q := ⟨front, back, by rw [List.append_assoc]; exact hs.symm⟩
  have hqa : q <:+: afterKeyword t := by
    obtain ⟨p, ps, hp, hpr, hps⟩ := infix_part false (afterKeyword t)
    rw [hp] at hq
    rcases List.mem_cons.mp hq with rfl | hq
    · exact hpr.isInfix
    · exact hps q hq
  exact (htr.trans hqa).trans (List.drop_suffix _ t).isInfix

theorem mem_join (c : Char) (ps : List Text) (h : c ∈ Text.join joint ps) :
    c ∈ joint ∨ ∃ p ∈ ps, c ∈ p := by
  induction ps with
  | nil => simp [Text.join] at h
  | cons p ps ih =>
    cases ps with
    | nil => exact Or.inr ⟨p, by simp, by simpa [Text.join] using h⟩
    | cons q ps =>
      have he : Text.join joint (p :: q :: ps) = p ++ (joint ++ Text.join joint (q :: ps)) := by
        rw [join_joint]
        simp [joint]
      rw [he, List.mem_append, List.mem_append] at h
      rcases h with h | h | h
      · exact Or.inr ⟨p, by simp, h⟩
      · exact Or.inl h
      · rcases ih h with h | ⟨s, hs, h⟩
        · exact Or.inl h
        · exact Or.inr ⟨s, by simp [hs], h⟩

/-- What is merged holds only what the conditions hold, a keyword of its own and joints. -/
theorem mem_conjoin (c : Char) (t : Text) (ts : List Text) (h : c ∈ conjoin (t :: ts)) :
    c ∈ "@media".toList ∨ c ∈ joint ∨ ∃ s ∈ t :: ts, c ∈ s := by
  have hlead : c ∈ leading t → c ∈ "@media".toList ∨ c ∈ t := by
    rw [leading]
    fun_cases keyword? t with
    | case1 r h => exact Or.inl
    | case2 r h =>
      intro hc
      refine Or.inr ?_
      rcases List.mem_cons.mp hc with rfl | hc
      · simp
      · exact List.mem_cons_of_mem _ ((List.takeWhile_prefix _).subset hc)
    | case3 => exact Or.inl
  have hpart : ∀ p ∈ merged (t :: ts), c ∈ p → ∃ s ∈ t :: ts, c ∈ s := by
    intro p hp hc
    obtain ⟨s, hs, hps, -⟩ := mem_merged _ p hp
    exact ⟨s, hs, (infix_conjuncts s p hps).subset hc⟩
  have hall : c ∈ leading t ∨ c ∈ joint ∨ ∃ p ∈ merged (t :: ts), c ∈ p := by
    rw [conjoin_cons] at h
    split at h
    · exact Or.inl h
    · rw [List.mem_append, List.mem_cons] at h
      rcases h with h | rfl | h
      · exact Or.inl h
      · exact Or.inr (Or.inl (by decide))
      · exact Or.inr (mem_join c _ h)
  rcases hall with h | h | ⟨p, hp, h⟩
  · exact (hlead h).imp id fun h => Or.inr ⟨t, by simp, h⟩
  · exact Or.inr (Or.inl h)
  · exact Or.inr (Or.inr (hpart p hp h))

end NestedCss.Condition
