import Mathlib.Data.List.Forall2
import NestedCss.Proofs.MergedCopies
import NestedCss.Proofs.Templates

/-!
# Copies of the scope

Composed under a class, a stack of lists comes to what it comes to by itself, with the class and a
space put in front of some compound selectors: once for each entry of the lowest list, and again
wherever a path is put for an `&`. No class begins within another, so taking the class away takes
these copies with their spaces and nothing else, as long as the class stands nowhere in the text
without them.
-/

set_option autoImplicit false

namespace NestedCss.Scope
open NestedCss.Path Containment

/-- Whether the second text is the first with the scope and a space put in front of some compound
selectors. -/
inductive Inserted (scope : Text) : Text → Text → Prop where
  | nil : Inserted scope [] []
  | keep (c : Char) (t u : Text) (h : Inserted scope t u) : Inserted scope (c :: t) (c :: u)
  | copy (c : Char) (t u : Text) (hc : startsCompound (c :: t) = true) (h : Inserted scope t u) :
    Inserted scope (c :: t) (scope ++ ' ' :: c :: u)

theorem solid_of_startsCompound (c : Char) (t : Text) (h : startsCompound (c :: t) = true) :
    Text.isBlank c = false := by
  rw [startsCompound, Bool.or_eq_true] at h
  rcases h with h | h
  · apply Text.isBlank_word
    rcases Bool.or_eq_true_iff.mp h with h | h
    · exact Condition.isWord_upper c h
    · exact Condition.isWord_lower c h
  · have hb : ∀ c ∈ ['.', '#', '*', '[', ':'], Text.isBlank c = false := by decide
    exact hb c (by simpa using h)

theorem ne_break_of_startsCompound (c : Char) (t : Text) (h : startsCompound (c :: t) = true) :
    c ≠ '\n' := by
  rintro rfl
  exact absurd (solid_of_startsCompound '\n' t h) (by decide)

namespace Inserted

variable {scope t u v w : Text}

theorem refl (t : Text) : Inserted scope t t := by
  induction t with
  | nil => exact nil
  | cons c t ih => exact keep c t t ih

theorem append (h : Inserted scope t u) (k : Inserted scope v w) :
    Inserted scope (t ++ v) (u ++ w) := by
  induction h with
  | nil => exact k
  | keep c t u _ ih => exact keep c _ _ ih
  | copy c t u hc _ ih =>
    rw [List.append_assoc]
    exact copy c _ _ hc ih

/-- What is put into a text in two parts is put into the parts. -/
theorem exists_parts (h : Inserted scope (t ++ v) u) :
    ∃ a b, u = a ++ b ∧ Inserted scope t a ∧ Inserted scope v b := by
  induction t generalizing u with
  | nil => exact ⟨[], u, rfl, nil, h⟩
  | cons c t ih =>
    cases h with
    | keep _ _ u h =>
      obtain ⟨a, b, rfl, ha, hb⟩ := ih h
      exact ⟨c :: a, b, rfl, keep c t a ha, hb⟩
    | copy _ _ u hc h =>
      obtain ⟨a, b, rfl, ha, hb⟩ := ih h
      exact ⟨scope ++ ' ' :: c :: a, b, by simp, copy c t a hc ha, hb⟩

theorem eq_of_blank (h : Inserted scope t u) (ht : ∀ c ∈ t, Text.isBlank c = true) : u = t := by
  induction h with
  | nil => rfl
  | keep c t u _ ih => rw [ih fun a ha => ht a (by simp [ha])]
  | copy c t u hc _ _ =>
    exact absurd ((ht c (by simp)).symm.trans (solid_of_startsCompound c t hc)) (by simp)

theorem eq_nil_iff (h : Inserted scope t u) : t = [] ↔ u = [] := by
  cases h <;> simp

theorem last_eq (h : Inserted scope t u) : u.getLast? = t.getLast? := by
  induction h with
  | nil => rfl
  | keep c t u _ ih => rw [List.getLast?_cons, List.getLast?_cons, ih]
  | copy c t u _ _ ih =>
    rw [List.getLast?_append_of_ne_nil _ (by simp), List.getLast?_cons_cons, List.getLast?_cons,
      List.getLast?_cons, ih]

/-! ## In step -/

theorem head_solid (hs : IsClass scope) (h : Inserted scope t u)
    (ht : ∀ c, t.head? = some c → Text.isBlank c = false) :
    ∀ c, u.head? = some c → Text.isBlank c = false := by
  cases h with
  | nil => exact ht
  | keep c t u h => exact ht
  | copy c t u hc h =>
    intro a ha
    rw [List.head?_append_of_ne_nil _ (ne_nil_class hs)] at ha
    exact blank_class hs a (List.mem_of_mem_head? ha)

theorem trim (hs : IsClass scope) (h : Inserted scope t u) :
    Inserted scope (Text.trim t) (Text.trim u) := by
  obtain ⟨front, back, ht, hf, hb⟩ := Watch.trim_split t
  obtain ⟨hh, hl⟩ := (Text.trimmed_iff _).mp (Text.trim_trim t)
  rw [ht] at h
  obtain ⟨a, r, rfl, ha, hr⟩ := h.exists_parts
  obtain ⟨v, b, rfl, hv, hb'⟩ := hr.exists_parts
  rw [ha.eq_of_blank hf, hb'.eq_of_blank hb, trim_within front v back hf hb]
  · exact hv
  · exact (Text.trimmed_iff v).mpr ⟨hv.head_solid hs hh, by rwa [hv.last_eq]⟩

theorem putParent (h : Inserted scope t u) (segment : Text) :
    Inserted scope (Path.putParent t segment) (Path.putParent u segment) := by
  induction segment with
  | nil => exact nil
  | cons c segment ih =>
    by_cases hc : c = '&'
    · subst hc
      rw [putParent_parent, putParent_parent]
      exact h.append ih
    · rw [putParent_cons t segment c hc, putParent_cons u segment c hc]
      exact keep c _ _ ih

end Inserted

theorem endsInWord_append (s t : Text) (hn : t ≠ []) (hb : t ≠ ['\n']) :
    endsInWord (s ++ t) = endsInWord t := by
  rcases List.eq_nil_or_concat t with rfl | ⟨r, c, rfl⟩
  · exact absurd rfl hn
  by_cases hc : c = '\n'
  · subst hc
    rcases List.eq_nil_or_concat r with rfl | ⟨r, d, rfl⟩
    · exact absurd rfl hb
    · rw [endsInWord_break d (r.reverse ++ s.reverse) _ (by simp),
        endsInWord_break d r.reverse _ (by simp)]
  · rw [endsInWord_cons c (r.reverse ++ s.reverse) _ hc (by simp),
      endsInWord_cons c r.reverse _ hc (by simp)]

theorem cut_cons (g : Guard) (c : Char) (t : Text) (hc : g.cuts c = false) :
    ∃ e es, cut (g.step c) t = e :: es ∧ cut g (c :: t) = (c :: e) :: es := by
  obtain ⟨e, es, he⟩ := List.exists_cons_of_ne_nil (cut_ne_nil (g.step c) t)
  refine ⟨e, es, he, ?_⟩
  rw [cut, hc, he]
  rfl

/-- What a guard does not heed goes with the piece behind it. -/
theorem cut_unheeded (g : Guard) (s t : Text) (hg : g.Sane) (hs : ∀ c ∈ s, c ∉ Watch.heeded)
    (e : Text) (es : List Text) (h : cut g t = e :: es) : cut g (s ++ t) = (s ++ e) :: es := by
  induction s with
  | nil => exact h
  | cons c s ih =>
    obtain ⟨hst, hc⟩ := Guard.step_unheeded g c hg (hs c (by simp))
    rw [List.cons_append, cut, hc, hst, ih fun a ha => hs a (by simp [ha])]
    rfl

namespace Inserted

variable {scope t u v w : Text}

theorem eq_break_iff (hs : IsClass scope) (h : Inserted scope t u) : t = ['\n'] ↔ u = ['\n'] := by
  cases h with
  | nil => rfl
  | keep c t u h => simp [h.eq_nil_iff]
  | copy c t u hc h =>
    obtain ⟨a, w, rfl, -⟩ := hs
    simp [ne_break_of_startsCompound c t hc]

theorem endsInWord_eq (hs : IsClass scope) (h : Inserted scope t u) :
    endsInWord u = endsInWord t := by
  -- a character in front of more than a line break does not matter
  have hcons : ∀ (c : Char) (t u : Text), Inserted scope t u → endsInWord u = endsInWord t →
      endsInWord (c :: u) = endsInWord (c :: t) := by
    intro c t u h ih
    by_cases hn : t = []
    · rw [hn, h.eq_nil_iff.mp hn]
    by_cases hb : t = ['\n']
    · rw [hb, (h.eq_break_iff hs).mp hb]
    · have hu := endsInWord_append [c] u (mt h.eq_nil_iff.mpr hn) (mt (h.eq_break_iff hs).mpr hb)
      exact (hu.trans ih).trans (endsInWord_append [c] t hn hb).symm
  induction h with
  | nil => rfl
  | keep c t u h ih => exact hcons c t u h ih
  | copy c t u hc h ih =>
    have hn := ne_break_of_startsCompound c t hc
    have ha := endsInWord_append (scope ++ [' ']) (c :: u) (by simp) (by simp [hn])
    rw [List.append_assoc, List.singleton_append] at ha
    rw [ha]
    exact hcons c t u h ih

theorem attach (hs : IsClass scope) (h : Inserted scope t u) (segment : Text) :
    Inserted scope (Path.attach t segment) (Path.attach u segment) := by
  rw [Path.attach, Path.attach, h.endsInWord_eq hs]
  split_ifs
  · exact (h.putParent segment).trim hs
  · exact h.append (refl _)
  · exact h.append (refl _)

/-- A list is cut where it is cut with the scope in it. -/
theorem cut (hs : IsClass scope) (h : Inserted scope t u) (g : Guard) (hg : g.Sane) :
    List.Forall₂ (Inserted scope) (Path.cut g t) (Path.cut g u) := by
  induction h generalizing g with
  | nil => exact .cons nil .nil
  | keep c t u h ih =>
    cases hc : g.cuts c with
    | true =>
      rw [Path.cut, Path.cut, hc]
      exact .cons nil (ih g hg)
    | false =>
      obtain ⟨e, es, he, het⟩ := cut_cons g c t hc
      obtain ⟨f, fs, hf, hfu⟩ := cut_cons g c u hc
      have hi := ih (g.step c) (Guard.sane_step g c hg)
      rw [he, hf, List.forall₂_cons] at hi
      rw [het, hfu]
      exact .cons (keep c e f hi.1) hi.2
  | copy c t u hc h ih =>
    have hcut : g.cuts c = false := by
      have hn : c ≠ ',' := by
        rintro rfl
        exact absurd hc (by simp [startsCompound])
      simp [Guard.cuts, hn]
    have hw : ∀ a ∈ scope ++ [' '], a ∉ Watch.heeded := by
      intro a ha
      rcases List.mem_append.mp ha with ha | ha
      · exact unheeded_class hs a ha
      · rw [List.mem_singleton.mp ha]
        decide
    obtain ⟨e, es, he, het⟩ := cut_cons g c t hcut
    obtain ⟨f, fs, hf, hfu⟩ := cut_cons g c u hcut
    have hi := ih (g.step c) (Guard.sane_step g c hg)
    rw [he, hf, List.forall₂_cons] at hi
    have hsu := cut_unheeded g (scope ++ [' ']) (c :: u) hg hw _ _ hfu
    rw [List.append_assoc, List.singleton_append] at hsu
    rw [het, hsu, List.append_assoc]
    exact .cons (copy c e f hc hi.1) hi.2

theorem joined (ts us : List Text) (h : List.Forall₂ (Inserted scope) ts us) :
    Inserted scope (Path.joined ts) (Path.joined us) := by
  induction h with
  | nil => exact nil
  | @cons t u ts us htu h ih =>
    cases h with
    | nil => simpa [Path.joined, Text.join] using htu
    | cons hvw h =>
      rw [Watch.joined_cons, Watch.joined_cons]
      exact htu.append (keep ',' _ _ ih)

theorem pairings (hs : IsClass scope) (ts us segments : List Text)
    (h : List.Forall₂ (Inserted scope) ts us) :
    List.Forall₂ (Inserted scope) (Path.pairings ts segments) (Path.pairings us segments) := by
  induction h with
  | nil => exact .nil
  | cons htu h ih =>
    refine List.rel_append ?_ ih
    rw [List.forall₂_map_left_iff, List.forall₂_map_right_iff, List.forall₂_same]
    exact fun s _ => htu.attach hs s

theorem attachList (hs : IsClass scope) (h : Inserted scope t u) (segment : Text) :
    Inserted scope (Path.attachList t segment) (Path.attachList u segment) :=
  joined _ _ (pairings hs _ _ _ (h.cut hs Guard.start Guard.sane_start))

theorem foldl (hs : IsClass scope) (h : Inserted scope t u) (ts : List Text) :
    Inserted scope (ts.foldl Path.attachList t) (ts.foldl Path.attachList u) := by
  induction ts generalizing t u with
  | nil => exact h
  | cons s ts ih => exact ih (h.attachList hs s)

end Inserted

/-! ## Taking the scope away -/

theorem removeFrom_gone (scope w r : Text) (n : ℕ) :
    removeFrom scope (w.length + n) (w ++ r) = removeFrom scope n r := by
  induction w with
  | nil => rw [List.length_nil, Nat.zero_add, List.nil_append]
  | cons c w ih =>
    rw [List.cons_append, List.length_cons, Nat.succ_add]
    exact ih

theorem remove_cons (scope : Text) (c : Char) (r : Text) (h : after? scope (c :: r) = none) :
    remove scope (c :: r) = c :: remove scope r := by
  rw [remove, removeFrom]
  · rfl
  · exact h

theorem after?_scope (scope r : Text) (h : r.head?.any Text.isName = false) :
    after? scope (scope ++ r) = some r := by
  simp [after?, h, List.isPrefixOf_iff_prefix]

theorem after?_of_not_prefix (scope t : Text) (h : ¬ scope <+: t) : after? scope t = none := by
  rw [after?, if_neg]
  simp [List.isPrefixOf_iff_prefix, h]

variable {scope : Text}

theorem remove_nil (hs : IsClass scope) : remove scope [] = [] := by
  obtain ⟨a, w, rfl, -⟩ := hs
  rfl

/-- Where the scope is taken away, its trace stands before what is left. -/
theorem remove_scope (hn : scope ≠ []) (r : Text) (hr : r.head?.any Text.isName = false) :
    remove scope (scope ++ r) = (trace r).1 ++ removeFrom scope (trace r).2 r := by
  obtain ⟨a, w, rfl⟩ := List.exists_cons_of_ne_nil hn
  have ha := after?_scope (a :: w) r hr
  rw [List.cons_append] at ha ⊢
  rw [remove, removeFrom.eq_def]
  simp only [ha, List.length_cons, Nat.succ_add, removeFrom_gone]

theorem remove_space (hn : scope ≠ []) (r : Text) :
    remove scope (scope ++ ' ' :: r) = remove scope r := by
  rw [remove_scope hn _ rfl]
  rfl

namespace Inserted

variable {t u w : Text}

/-- What begins no copy of a class is where it is without the copies. -/
theorem prefix_of_prefix (hs : IsClass scope) (h : Inserted scope t u) (hw : '.' ∉ w)
    (hp : w <+: u) : w <+: t := by
  induction h generalizing w with
  | nil => exact hp
  | keep c t u h ih =>
    rcases List.prefix_cons_iff.mp hp with rfl | ⟨w, rfl, hq⟩
    · exact List.nil_prefix
    · rw [List.mem_cons, not_or] at hw
      exact List.cons_prefix_cons.mpr ⟨rfl, ih hw.2 hq⟩
  | copy c t u hc h ih =>
    obtain ⟨a, s, rfl, -⟩ := hs
    rcases List.prefix_cons_iff.mp hp with rfl | ⟨w, rfl, -⟩
    · exact List.nil_prefix
    · exact absurd (by simp) hw

/-- No class begins before a copy and ends within it. -/
theorem after?_eq_none (hs : IsClass scope) (h : Inserted scope t u) (c : Char)
    (hn : ¬ scope <:+: c :: t) : after? scope (c :: u) = none := by
  refine after?_of_not_prefix scope _ fun hp => hn ?_
  obtain ⟨a, s, rfl, hw⟩ := id hs
  obtain ⟨rfl, hq⟩ := List.cons_prefix_cons.mp hp
  have hd : '.' ∉ a :: s := fun hm => absurd (hw '.' hm) (by decide)
  exact (List.cons_prefix_cons.mpr ⟨rfl, h.prefix_of_prefix hs hd hq⟩).isInfix

theorem remove_eq (hs : IsClass scope) (h : Inserted scope t u) (hn : ¬ scope <:+: t) :
    remove scope u = t := by
  induction h with
  | nil => exact remove_nil hs
  | keep c t u h ih =>
    have hi := ih fun hi => hn (hi.trans (List.suffix_cons c t).isInfix)
    rw [remove_cons scope c u (h.after?_eq_none hs c hn), hi]
  | copy c t u hc h ih =>
    have hi := ih fun hi => hn (hi.trans (List.suffix_cons c t).isInfix)
    rw [remove_space (ne_nil_class hs), remove_cons scope c u (h.after?_eq_none hs c hn), hi]

end Inserted

/-- Each entry of the lowest list takes one copy. -/
theorem inserted_attachList (hs : IsClass scope) (t : Text)
    (ht : ∀ e ∈ entries t, startsCompound e = true ∧ '&' ∉ e) :
    Inserted scope t (attachList scope t) := by
  have hp : pairings (entries scope) (entries t) = (entries t).map (attach scope) := by
    rw [entries_scope (unheeded_class hs), pairings, List.flatMap_singleton]
  have hf : List.Forall₂ (Inserted scope) (entries t) ((entries t).map (attach scope)) := by
    rw [List.forall₂_map_right_iff, List.forall₂_same]
    intro e he
    obtain ⟨hc, ha⟩ := ht e he
    cases e with
    | nil => simp [startsCompound] at hc
    | cons c r =>
      have hat : attach scope (c :: r) = scope ++ ' ' :: c :: r := by
        rw [attach, if_neg (by simpa using ha), endsInWord_class hs, hc]
        rfl
      rw [hat]
      exact .copy c r r hc (.refl r)
  have hj := Inserted.joined _ _ hf
  rwa [entries, joined_cut, ← entries, ← hp, ← attachList] at hj

/-- Taking the class away from what is composed under it leaves what is composed without it. -/
theorem remove_compose (hs : IsClass scope) (t : Text) (ts : List Text)
    (ht : ∀ e ∈ entries t, startsCompound e = true ∧ '&' ∉ e)
    (hn : ¬ scope <:+: compose (t :: ts)) :
    remove scope (compose (scope :: t :: ts)) = compose (t :: ts) :=
  ((inserted_attachList hs t ht).foldl hs ts).remove_eq hs hn

theorem remove_compose_of_cards :
    (∀ e ∈ entries ".a,.b:is(p, q)".toList, startsCompound e = true ∧ '&' ∉ e) ∧
      ¬ ".s".toList <:+: compose [".a,.b:is(p, q)".toList, "&:hover &,.c:not(&,[x=\"&\"])".toList] ∧
      remove ".s".toList
        (compose [".s".toList, ".a,.b:is(p, q)".toList, "&:hover &,.c:not(&,[x=\"&\"])".toList]) =
      compose [".a,.b:is(p, q)".toList, "&:hover &,.c:not(&,[x=\"&\"])".toList] := by
  have hs : IsClass ".s".toList := ⟨'s', [], rfl, by simp only [List.forall_mem_singleton]; decide⟩
  have ht : ∀ e ∈ entries ".a,.b:is(p, q)".toList, startsCompound e = true ∧ '&' ∉ e := by
    decide +kernel
  have hn : ¬ ".s".toList <:+:
      compose [".a,.b:is(p, q)".toList, "&:hover &,.c:not(&,[x=\"&\"])".toList] := by
    decide +kernel
  exact ⟨ht, hn, remove_compose hs ".a,.b:is(p, q)".toList _ ht hn⟩

end NestedCss.Scope
