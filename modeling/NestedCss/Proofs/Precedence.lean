import Mathlib.Algebra.GroupWithZero.Nat
import NestedCss.Compile
import NestedCss.Proofs.Anchors
import NestedCss.Proofs.Arrivals

/-!
# Keyframes before conditions

The innermost keyframes header of a stack is the group of its key, and what lies below the header
takes no part in the key, conditions no more than anything else. All that lies above the header is
composed to the selector, and there a condition is not left out: it is composed as if it were a
step. Since composing drops no character that means anything, a condition that is entered within
keyframes always shows in the selector.
-/

set_option autoImplicit false

namespace NestedCss

namespace Path

/-! ## Composing counts -/

variable {c : Char}

theorem count_putParent (hc : c ≠ '&') (path segment : Text) :
    (putParent path segment).count c = segment.count '&' * path.count c + segment.count c := by
  induction segment with
  | nil => simp [putParent]
  | cons a segment ih =>
    by_cases ha : a = '&'
    · subst ha
      rw [putParent_parent, List.count_append, ih, List.count_cons_self,
        List.count_cons_of_ne hc.symm, Nat.succ_mul]
      omega
    · rw [putParent_cons path segment a ha, List.count_cons, ih, List.count_cons_of_ne ha,
        List.count_cons]
      omega

theorem count_trim (hb : Text.isBlank c = false) (t : Text) : (Text.trim t).count c = t.count c := by
  have hz : ∀ b : Text, (∀ a ∈ b, Text.isBlank a = true) → b.count c = 0 := fun b hbl =>
    List.count_eq_zero.mpr fun hm => by simpa [hb] using hbl c hm
  obtain ⟨front, back, ht, hf, hk⟩ := Watch.trim_split t
  conv_rhs => rw [ht]
  rw [List.count_append, List.count_append, hz front hf, hz back hk, Nat.zero_add, Nat.add_zero]

/-- Attaching loses nothing of the path or the segment but blanks and `&`. -/
theorem count_attach (hc : c ≠ '&') (hb : Text.isBlank c = false) (path segment : Text) :
    path.count c + segment.count c ≤ (attach path segment).count c := by
  rw [attach]
  split_ifs with hs
  · have hp : 0 < segment.count '&' := List.count_pos_iff.mpr (by simpa using hs)
    rw [count_trim hb, count_putParent hc]
    exact Nat.add_le_add_right (Nat.le_mul_of_pos_left _ hp) _
  · have hsp : ' ' ≠ c := fun he => absurd hb (by rw [← he]; decide)
    rw [List.count_append, List.count_cons_of_ne hsp]
  · rw [List.count_append]

theorem count_joined (hc : c ≠ ',') (ts : List Text) :
    (joined ts).count c = (ts.map (List.count c)).sum := by
  induction ts with
  | nil => rfl
  | cons t ts ih =>
    cases ts with
    | nil => simp [joined, Text.join]
    | cons u ts =>
      rw [Watch.joined_cons, List.count_append, List.count_cons_of_ne hc.symm, ih]
      rfl

theorem count_entries (hc : c ≠ ',') (t : Text) :
    ((entries t).map (List.count c)).sum = t.count c := by
  rw [← count_joined hc, entries, joined_cut]

/-- What is attached to a path, together with the path as often as it is taken. -/
theorem count_segments (hc : c ≠ '&') (hb : Text.isBlank c = false) (path : Text)
    (segments : List Text) : segments.length * path.count c + (segments.map (List.count c)).sum ≤
      ((segments.map (attach path)).map (List.count c)).sum := by
  induction segments with
  | nil => simp
  | cons s segments ih =>
    have hs := count_attach hc hb path s
    simp only [List.map_cons, List.sum_cons, List.length_cons, Nat.succ_mul]
    omega

theorem count_pairings (hc : c ≠ '&') (hb : Text.isBlank c = false) (paths segments : List Text) :
    segments.length * (paths.map (List.count c)).sum +
      paths.length * (segments.map (List.count c)).sum ≤
        ((pairings paths segments).map (List.count c)).sum := by
  induction paths with
  | nil => simp
  | cons p paths ih =>
    have hp := count_segments hc hb p segments
    rw [pairings, List.flatMap_cons, List.map_append, List.sum_append, ← pairings]
    simp only [List.map_cons, List.sum_cons, List.length_cons, Nat.mul_add, Nat.succ_mul]
    omega

/-- Each path and each segment is taken at least once. -/
theorem count_attachList (hc : c ≠ '&') (hm : c ≠ ',') (hb : Text.isBlank c = false)
    (path t : Text) : path.count c + t.count c ≤ (attachList path t).count c := by
  have he : 0 < (entries t).length := List.length_pos_iff.mpr (cut_ne_nil _ t)
  have hp : 0 < (entries path).length := List.length_pos_iff.mpr (cut_ne_nil _ path)
  have hl := count_pairings hc hb (entries path) (entries t)
  rw [count_entries hm, count_entries hm] at hl
  rw [attachList, count_joined hm]
  exact (Nat.add_le_add (Nat.le_mul_of_pos_left _ he) (Nat.le_mul_of_pos_left _ hp)).trans hl

theorem mem_attachList_of_mem (hc : c ≠ '&') (hm : c ≠ ',') (hb : Text.isBlank c = false)
    (path t : Text) (h : c ∈ path ∨ c ∈ t) : c ∈ attachList path t := by
  have hl := count_attachList hc hm hb path t
  rw [← List.count_pos_iff, ← List.count_pos_iff] at h
  exact List.count_pos_iff.mp (by omega)

theorem mem_foldl_of_mem (hc : c ≠ '&') (hm : c ≠ ',') (hb : Text.isBlank c = false) (path : Text)
    (ts : List Text) (h : c ∈ path ∨ ∃ t ∈ ts, c ∈ t) : c ∈ ts.foldl attachList path := by
  induction ts generalizing path with
  | nil => simpa using h
  | cons s ts ih =>
    refine ih _ ?_
    rcases h with h | ⟨t, ht, h⟩
    · exact Or.inl (mem_attachList_of_mem hc hm hb path s (Or.inl h))
    · rcases List.mem_cons.mp ht with rfl | ht
      · exact Or.inl (mem_attachList_of_mem hc hm hb path t (Or.inr h))
      · exact Or.inr ⟨t, ht, h⟩

theorem mem_compose (hc : c ≠ '&') (hm : c ≠ ',') (hb : Text.isBlank c = false) (ts : List Text)
    (t : Text) (ht : t ∈ ts) (h : c ∈ t) : c ∈ compose ts := by
  cases ts with
  | nil => exact absurd ht List.not_mem_nil
  | cons s ts =>
    refine mem_foldl_of_mem hc hm hb s ts ?_
    rcases List.mem_cons.mp ht with rfl | ht
    · exact Or.inl h
    · exact Or.inr ⟨t, ht, h⟩

/-- What holds a character that means something shows when it is composed on top of a stack. -/
theorem compose_concat_ne (hc : c ≠ '&') (hm : c ≠ ',') (hb : Text.isBlank c = false)
    (ts : List Text) (t : Text) (ht : c ∈ t) : compose (ts ++ [t]) ≠ compose ts := by
  have hpos : 0 < t.count c := List.count_pos_iff.mpr ht
  intro he
  cases ts with
  | nil =>
    have hn : t = [] := he
    rw [hn] at ht
    exact absurd ht List.not_mem_nil
  | cons s ts =>
    have hf : compose (s :: ts ++ [t]) = attachList (compose (s :: ts)) t := by
      rw [List.cons_append, compose, compose, List.foldl_append]
      rfl
    have hcount := count_attachList hc hm hb (compose (s :: ts)) t
    rw [← hf, he] at hcount
    omega

end Path

namespace Filing

open NestedCss.Path

theorem innermost_keyframes_of_none (ts : List Text)
    (h : ∀ t ∈ ts, Prelude.kind t ≠ .keyframes) : innermostKeyframes ts = none := by
  induction ts with
  | nil => rfl
  | cons t ts ih =>
    rw [innermostKeyframes, ih fun s hs => h s (by simp [hs])]
    exact if_neg (h t (by simp))

/-- What lies below the header of keyframes takes no part in them. -/
theorem innermost_keyframes_header (below above : List Text) (header : Text)
    (hh : Prelude.kind header = .keyframes) (ha : ∀ t ∈ above, Prelude.kind t ≠ .keyframes) :
    innermostKeyframes (below ++ header :: above) = some (header, above) := by
  induction below with
  | nil =>
    rw [List.nil_append, innermostKeyframes, innermost_keyframes_of_none above ha]
    exact if_pos hh
  | cons t below ih => rw [List.cons_append, innermostKeyframes, ih]

theorem key_of_header (below above : List Text) (header : Text)
    (hh : Prelude.kind header = .keyframes) (ha : ∀ t ∈ above, Prelude.kind t ≠ .keyframes) :
    Key.ofStack (below ++ header :: above) = ⟨header, compose above⟩ := by
  rw [Key.ofStack, innermost_keyframes_header below above header hh ha]

theorem ofKind_selector (ts : List Text) (hk : ∀ t ∈ ts, Prelude.kind t ≠ .keyframes)
    (hc : ∀ t ∈ ts, Prelude.kind t ≠ .condition) : ofKind .selector ts = ts := by
  refine List.filter_eq_self.mpr fun t ht => ?_
  cases hkt : Prelude.kind t with
  | selector => rfl
  | condition => exact absurd hkt (hc t ht)
  | keyframes => exact absurd hkt (hk t ht)

theorem mem_condition (t : Text) (h : Prelude.kind t = .condition) : '@' ∈ t := by
  obtain ⟨-, -, p, after, rfl, -⟩ :=
    (Condition.isCondition_iff t).mp (Condition.isCondition_of_kind t h)
  exact List.mem_cons_self

/-- Where no selector holds an at sign, a condition among the selectors shows when all of it is
composed. -/
theorem compose_condition_ne (ts : List Text) (t : Text) (ht : t ∈ ts)
    (hk : Prelude.kind t = .condition) (hs : ∀ s ∈ ofKind .selector ts, '@' ∉ s) :
    compose ts ≠ compose (ofKind .selector ts) := by
  intro he
  have hm : '@' ∈ compose (ofKind .selector ts) :=
    he ▸ mem_compose (by decide) (by decide) (by decide) ts t ht (mem_condition t hk)
  match hl : ofKind .selector ts with
  | [] =>
    rw [hl] at hm
    exact absurd hm List.not_mem_nil
  | s :: ss =>
    rw [hl] at hm hs
    rcases mem_foldl '@' s ss hm with h | h | h | ⟨a, ha, h⟩
    · exact absurd h (by decide)
    · exact absurd h (by decide)
    · exact hs s (by simp) h
    · exact hs a (by simp [ha]) h

/-- A stack with keyframes stands for their innermost header and for all that is composed above it:
for the selectors as long as no condition is among them, and only then unless a selector holds an at
sign. Whatever lies below the header may be changed, conditions as well, and above it the group
stays; but any condition that is entered there changes the selector. -/
theorem keyframes_before_conditions (stack : List Text)
    (h : ∃ t ∈ stack, Prelude.kind t = .keyframes) :
    ∃ below header above, stack = below ++ header :: above ∧
      Prelude.kind header = .keyframes ∧ (∀ t ∈ above, Prelude.kind t ≠ .keyframes) ∧
      Key.ofStack stack = ⟨header, compose above⟩ ∧
      ((∀ t ∈ above, Prelude.kind t ≠ .condition) →
        Key.ofStack stack = ⟨header, compose (ofKind .selector above)⟩) ∧
      ((∀ t ∈ ofKind .selector above, '@' ∉ t) →
        Key.ofStack stack = ⟨header, compose (ofKind .selector above)⟩ →
          ∀ t ∈ above, Prelude.kind t ≠ .condition) ∧
      (∀ others, Key.ofStack (others ++ header :: above) = Key.ofStack stack) ∧
      (∀ others, (∀ t ∈ others, Prelude.kind t ≠ .keyframes) →
        (Key.ofStack (below ++ header :: others)).group = header) ∧
      ∀ condition, Prelude.kind condition = .condition →
        (Key.ofStack (stack ++ [condition])).group = header ∧
        (Key.ofStack (stack ++ [condition])).selector ≠ (Key.ofStack stack).selector := by
  obtain ⟨header, above, hi⟩ : ∃ header above, innermostKeyframes stack = some (header, above) := by
    cases hi : innermostKeyframes stack with
    | some found => exact ⟨found.1, found.2, rfl⟩
    | none =>
      obtain ⟨t, ht, hk⟩ := h
      exact absurd hk (innermost_keyframes_none stack hi t ht)
  obtain ⟨hh, ha, below, rfl⟩ := innermost_keyframes_some stack above header hi
  have hkey := fun others => key_of_header others above header hh ha
  refine ⟨below, header, above, rfl, hh, ha, hkey below, fun hc => ?_, fun hs he t ht hc => ?_,
    fun others => ?_, fun others ho => ?_, fun condition hc => ?_⟩
  · rw [ofKind_selector above ha hc]
    exact hkey below
  · rw [hkey below] at he
    exact compose_condition_ne above t ht hc hs (Key.mk.inj he).2
  · rw [hkey others, hkey below]
  · rw [key_of_header below others header hh ho]
  · have hac : ∀ t ∈ above ++ [condition], Prelude.kind t ≠ .keyframes := by
      intro t ht
      rcases List.mem_append.mp ht with ht | ht
      · exact ha t ht
      · rw [List.mem_singleton.mp ht, hc]
        decide
    rw [List.append_assoc, List.cons_append, key_of_header below _ header hh hac, hkey below]
    exact ⟨rfl, compose_concat_ne (by decide) (by decide) (by decide) above condition
      (mem_condition condition hc)⟩

theorem keyframes_before_conditions_of_fade :
    let stack := [".s".toList, "@media print".toList, "@keyframes fade".toList, "from,to".toList]
    (∃ t ∈ stack, Prelude.kind t = .keyframes) ∧
      Key.ofStack stack = ⟨"@keyframes fade".toList, "from,to".toList⟩ ∧
      (Key.ofStack (stack ++ ["@media print".toList])).selector ≠ (Key.ofStack stack).selector := by
  intro stack
  have hk : ∃ t ∈ stack, Prelude.kind t = .keyframes := by decide
  obtain ⟨_, _, _, -, -, -, -, -, -, -, -, hc⟩ := keyframes_before_conditions stack hk
  exact ⟨hk, by decide, (hc "@media print".toList (by decide)).2⟩

/-- A condition within keyframes becomes a part of the step that it stands in. -/
theorem condition_joins_step :
    (¬ ∀ (below above : List Text) (header : Text), Prelude.kind header = .keyframes →
      (∀ t ∈ above, Prelude.kind t ≠ .keyframes) → Key.ofStack (below ++ header :: above) =
        ⟨header, compose (ofKind .selector above)⟩) ∧
      (unnest "@keyframes x\x7bfrom\x7b@media print\x7btop:0;\x7d\x7d\x7d".toList ".s".toList
        Settings.standard).text =
          "@keyframes s_x\x7b\n  from@media print\x7btop:0;\x7d\n\x7d".toList := by
  refine ⟨fun h => ?_, by decide +kernel⟩
  have he := h [".s".toList] ["from".toList, "@media print".toList] "@keyframes x".toList
    (by decide) (by decide)
  exact absurd he (by decide)

end Filing

end NestedCss
