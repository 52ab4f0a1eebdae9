import NestedCss.Proofs.Anchors
import NestedCss.Proofs.FlatSheets
import NestedCss.Proofs.Renaming

/-!
# Words put before names

A word that is put before a name in a fair copy leaves it one, and the pen goes on alike behind the
name. Within a string the word may come between a backslash and what it escapes. Then the name is
escaped otherwise than before, but behind any character of it that is no backslash the two readings
are the same again. Only a name of backslashes alone keeps them apart.
-/

set_option autoImplicit false

namespace NestedCss

/-- Whether a name may get a word in front wherever it stands: it holds no quote and no blank, and
not backslashes alone. -/
structure Text.Settles (n : Text) : Prop where
  solid : ∃ c ∈ n, c ≠ '\\'
  bare : ∀ c ∈ n, c ∉ Mark.quotes ∧ isBlank c = false

theorem Text.Settles.ne_nil {n : Text} (h : n.Settles) : n ≠ [] := by
  obtain ⟨c, hc, -⟩ := h.solid
  exact List.ne_nil_of_mem hc

namespace Path.Watch

/-- Behind a character that is no backslash it does not matter whether the text began escaped. -/
theorem steps_escaped (q : Char) (depth : Nat) (t : Text) (hs : ∃ c ∈ t, c ≠ '\\') (hq : q ∉ t) :
    steps ⟨some (q, true), depth⟩ t = steps ⟨some (q, false), depth⟩ t := by
  induction t with
  | nil => simp at hs
  | cons c t ih =>
    have hcq : c ≠ q := fun h => hq (by simp [h])
    by_cases hc : c = '\\'
    · have ht : ∃ c ∈ t, c ≠ '\\' := by simpa [hc] using hs
      have h₁ : step ⟨some (q, true), depth⟩ c = ⟨some (q, false), depth⟩ := rfl
      have h₂ : step ⟨some (q, false), depth⟩ c = ⟨some (q, true), depth⟩ := by simp [step, hc]
      rw [steps, steps, List.foldl_cons, List.foldl_cons, h₁, h₂]
      exact (ih ht fun h => hq (by simp [h])).symm
    · have h₁ : step ⟨some (q, true), depth⟩ c = ⟨some (q, false), depth⟩ := rfl
      have h₂ : step ⟨some (q, false), depth⟩ c = ⟨some (q, false), depth⟩ := by
        simp [step, hc, hcq]
      rw [steps, steps, List.foldl_cons, List.foldl_cons, h₁, h₂]

/-- Text without the quote stays within a string. -/
theorem steps_within (q : Char) (e : Bool) (depth : Nat) (t : Text) (hq : q ∉ t) :
    ∃ e', steps ⟨some (q, e), depth⟩ t = ⟨some (q, e'), depth⟩ := by
  induction t generalizing e with
  | nil => exact ⟨e, rfl⟩
  | cons c t ih =>
    have hcq : c ≠ q := fun h => hq (by simp [h])
    have hst : ∃ e', step ⟨some (q, e), depth⟩ c = ⟨some (q, e'), depth⟩ := by
      cases e with
      | true => exact ⟨false, rfl⟩
      | false =>
        by_cases hc : c = '\\'
        · exact ⟨true, by simp [step, hc]⟩
        · exact ⟨false, by simp [step, hc, hcq]⟩
    obtain ⟨e', he⟩ := hst
    rw [steps, List.foldl_cons, he]
    exact ih e' fun h => hq (by simp [h])

end Path.Watch

namespace Scan
open NestedCss.Path

theorem isTight_mono (m n : Nat) (c : Char) (hmn : m ≤ n) (h : isTight m c = false) :
    isTight n c = false := by
  by_cases hm : m > 0
  · have hn : n > 0 := by omega
    simpa [isTight, hm, hn] using h
  · exact isTight_of_not_mem n c (by simpa [isTight, hm] using h)

namespace Pen

theorem Like.trans {p q r : Pen} (h : Like p q) (k : Like q r) : Like p r where
  gap_eq := h.gap_eq.trans k.gap_eq
  watch_eq := h.watch_eq.trans k.watch_eq
  last_eq := by
    rcases h.last_eq with hl | ⟨hp, hq⟩
    · rw [hl]
      exact k.last_eq
    · rcases k.last_eq with kl | ⟨-, kr⟩
      · exact Or.inr ⟨hp, kl ▸ hq⟩
      · exact Or.inr ⟨hp, kr⟩

/-- Within a string anything may stand but its quote and a line break. -/
theorem neat_within (p : Pen) (q : Char) (e : Bool) (t : Text) (hs : p.watch.string = some (q, e))
    (hq : q ∉ t) (hn : '\n' ∉ t) : p.neat t = true := by
  induction t generalizing p e with
  | nil => rfl
  | cons c t ih =>
    have hc : c ≠ '\n' := fun h => hn (by simp [h])
    obtain ⟨e', he⟩ := Watch.steps_within q e p.watch.depth [c] fun h => hq (by simp_all)
    have hw : p.watch = ⟨some (q, e), p.watch.depth⟩ := by rw [← hs]
    have hst : (p.step c).watch.string = some (q, e') := by
      rw [watch_step, hw]
      exact congrArg Watch.string he
    rw [neat, ih (p.step c) e' hst (fun h => hq (by simp [h])) fun h => hn (by simp [h])]
    simp [allows, hs, hc]

/-- A word character fits wherever a character fits. -/
theorem fits_word (p : Pen) (a c : Char) (ha : Text.isName a = true) (h : p.fits c = true) :
    p.fits a = true := by
  have hna := ne_of_isName
  rw [fits] at h ⊢
  split_ifs at h ⊢ with hg
  · rw [Bool.and_eq_true, Bool.not_eq_true', Bool.not_eq_true'] at h ⊢
    have hc : a ∉ Mark.closers := by
      intro hm
      have hb : ∀ c ∈ Mark.closers, Text.isName c = false := by decide
      simp [hb a hm] at ha
    refine ⟨?_, isTight_of_not_mem _ a (quiet_name a ha).2⟩
    refine isTight_mono (p.depthOf c) _ p.last ?_ h.1
    rw [depthOf_eq p a hc, depthOf]
    split_ifs <;> omega
  · have hs : a ≠ '*' := ne_of_isName '*' a (by decide) ha
    have hl : a ≠ '/' := ne_of_isName '/' a (by decide) ha
    simp [hs, hl]

theorem allows_word (p : Pen) (a c : Char) (ha : Text.isName a = true)
    (hs : p.watch.string = none) (hc : c ≠ ' ') (h : p.allows c = true) : p.allows a = true := by
  have hf : p.fits c = true := by
    simp only [allows, hs, beq_iff_eq, hc, if_false, Bool.and_eq_true] at h
    exact h.2
  have hn := fun b hb => ne_of_isName b a hb ha
  have hsp : a ≠ ' ' := hn ' ' (by decide)
  have ht : a ≠ '\t' := hn '\t' (by decide)
  have hb : a ≠ '\n' := hn '\n' (by decide)
  have ho : a ≠ '{' := hn '{' (by decide)
  have hcl : a ≠ '}' := hn '}' (by decide)
  have hz : a ≠ ';' := hn ';' (by decide)
  simp [allows, hs, hsp, Mark.spacing, ht, hb, ho, hcl, hz, fits_word p a c ha hf]

variable {w n : Text}

/-- Outside strings the pen goes on behind the word as it was. -/
theorem insert_outside (p : Pen) (hs : p.watch.string = none) (hw : Text.IsWordText w)
    (hn : n.Settles) (h : p.neat n = true) :
    p.neat (w ++ n) = true ∧ Like (p.steps n) (p.steps (w ++ n)) := by
  have hname : ∀ b ∈ w, Text.isName b = true := fun b hb => Text.isName_of_isWord b (hw.2 b hb)
  have hu : ∀ b ∈ w, b ∉ Watch.heeded := fun b hb => Text.unheeded_word b (hw.2 b hb)
  obtain ⟨a, v, rfl⟩ := List.exists_cons_of_ne_nil hw.1
  obtain ⟨c, m, rfl⟩ := List.exists_cons_of_ne_nil hn.ne_nil
  have hc : c ≠ ' ' := (Text.ne_of_isBlank ' ' c (by decide) (hn.bare c (by simp)).2).symm
  have ha : p.allows a = true := by
    rw [neat, Bool.and_eq_true] at h
    exact allows_word p a c (hname a (by simp)) hs hc h.1
  have hst : p.step a = ⟨a, false, p.watch⟩ := by
    rw [step_solid p a (ne_of_isName ' ' a (by decide) (hname a (by simp)))]
    exact congrArg _ (Watch.keeps_unheeded p.watch [a] hs fun b hb => hu b (by simp_all)).2
  obtain ⟨hnv, hgv, hqv⟩ := neat_name ⟨a, false, p.watch⟩ v (fun b hb => hname b (by simp [hb])) rfl
    (quiet_name a (hname a (by simp)))
  have hwv : (p.steps (a :: v)).watch = p.watch := by
    rw [watch_steps]
    exact (Watch.keeps_unheeded p.watch _ hs hu).2
  have hsv : p.steps (a :: v) = steps ⟨a, false, p.watch⟩ v := by rw [← hst]; rfl
  rw [← hsv] at hgv hqv
  have hnw : p.neat (a :: v) = true := by rw [neat, ha, hst, hnv]; rfl
  have hfit : (p.steps (a :: v)).fits c = true := by
    rw [fits_quiet hqv, hgv]
    rfl
  constructor
  · rw [neat_append, hnw, neat_solid p _ c m hc hwv.symm hs hfit h]
    rfl
  · have he : (p.steps (a :: v)).step c = p.step c := by
      rw [step_solid _ c hc, step_solid p c hc, hwv]
    rw [steps_append]
    show Like ((p.step c).steps m) (((p.steps (a :: v)).step c).steps m)
    rw [he]
    exact Like.refl _

theorem not_mem_quote_of_word (hw : ∀ c ∈ w, Text.isWord c = true) (q : Char)
    (hq : q ∈ Mark.quotes) :
    q ∉ w := by
  have hb : ∀ c ∈ Mark.quotes, Text.isWord c = false := by decide
  exact fun hm => by simpa [hb q hq] using hw q hm

/-- Within a string the name may be escaped otherwise, but what follows it is not. -/
theorem insert_within (p : Pen) (q : Char) (e : Bool) (hq : q ∈ Mark.quotes)
    (hs : p.watch.string = some (q, e)) (hw : Text.IsWordText w)
    (hn : n.Settles) : p.neat (w ++ n) = true ∧ Like (p.steps n) (p.steps (w ++ n)) := by
  have hqw : q ∉ w := not_mem_quote_of_word hw.2 q hq
  have hqn : q ∉ n := fun hm => (hn.bare q hm).1 hq
  have hbw : '\n' ∉ w := fun hm => absurd (hw.2 _ hm) (by decide)
  have hbn : '\n' ∉ n := fun hm => absurd (hn.bare _ hm).2 (by decide)
  have hp : p.watch = ⟨some (q, e), p.watch.depth⟩ := by rw [← hs]
  have hsteps : p.watch.steps (w ++ n) = p.watch.steps n := by
    have hsane : p.watch.Sane := by
      rw [hp]
      intro q' e' he
      obtain ⟨rfl, -⟩ := Prod.mk.inj (Option.some.inj he)
      exact hq
    obtain ⟨a, v, rfl⟩ := List.exists_cons_of_ne_nil hw.1
    have hu : ∀ b ∈ a :: v, b ∉ Watch.heeded := fun b hb => Text.unheeded_word b (hw.2 b hb)
    rw [Watch.steps_append, Watch.steps_unheeded _ a v hsane hu,
      Watch.step_unheeded _ a hsane (hu a (by simp)), hp]
    cases e with
    | false => rfl
    | true => exact (Watch.steps_escaped q _ n hn.solid hqn).symm
  refine ⟨neat_within p q e _ hs (by simp [hqw, hqn]) (by simp [hbw, hbn]), ?_⟩
  obtain ⟨m, c, rfl⟩ := (List.eq_nil_or_concat n).resolve_left hn.ne_nil
  rw [List.concat_eq_append] at hn hsteps ⊢
  have hc : c ≠ ' ' := (Text.ne_of_isBlank ' ' c (by decide) (hn.bare c (by simp)).2).symm
  rw [← List.append_assoc] at hsteps ⊢
  rw [steps_concat p m c hc, steps_concat p (w ++ m) c hc, hsteps]
  exact Like.refl _

/-- Putting a word before a name leaves a copy neat, and the pen goes on alike. -/
theorem insert_word (p : Pen) (hp : p.watch.Sane) (hw : Text.IsWordText w) (hn : n.Settles)
    (h : p.neat n = true) :
    p.neat (w ++ n) = true ∧ Like (p.steps n) (p.steps (w ++ n)) := by
  match hs : p.watch.string with
  | none => exact insert_outside p hs hw hn h
  | some (q, e) => exact insert_within p q e (hp q e hs) hs hw hn

/-- The same holds of all the names that are replaced in a text. -/
theorem neat_replaced (ns : List Text) (hw : Text.IsWordText w)
    (hns : ∀ n ∈ ns, n.Settles) {t u : Text} (hr : Text.Replaced ns (w ++ ·) t u) (p q : Pen)
    (hp : p.watch.Sane) (hl : Like p q) (h : p.neat t = true) :
    q.neat u = true ∧ Like (p.steps t) (q.steps u) := by
  induction hr generalizing p q with
  | nil => exact ⟨rfl, hl⟩
  | keep c t u _ ih =>
    rw [neat, Bool.and_eq_true] at h
    have hs : (p.step c).watch.Sane := by
      rw [watch_step]
      exact Watch.sane_step _ c hp
    obtain ⟨hn, hk⟩ := ih (p.step c) (q.step c) hs (hl.step c) h.2
    exact ⟨by rw [neat, ← hl.allows_eq, h.1, hn]; rfl, hk⟩
  | name n t u hm _ ih =>
    rw [neat_append, Bool.and_eq_true] at h
    have hs : (p.steps n).watch.Sane := by
      rw [watch_steps]
      exact Watch.sane_steps _ n hp
    obtain ⟨hn, hk⟩ := insert_word p hp hw (hns n hm) h.1
    obtain ⟨hnu, hku⟩ := ih (p.steps n) (q.steps (w ++ n)) hs (hk.trans (hl.steps _)) h.2
    rw [steps_append, steps_append q (w ++ n) u, neat_append q (w ++ n) u, hnu, ← hl.neat_eq, hn]
    exact ⟨rfl, hku⟩

end Pen

theorem plain_of_solid (c : Char) (h : Text.isBlank c = false) : Text.Plain c :=
  ⟨(Text.ne_of_isBlank '\r' c (by decide) h).symm, (Text.ne_of_isBlank '\x0c' c (by decide) h).symm⟩

/-- A copy stays one when words are put before the names behind some point of it. -/
theorem copied_replaced (ns : List Text) {w : Text} (hw : Text.IsWordText w)
    (hns : ∀ n ∈ ns, n.Settles) {t u : Text}
    (hr : Text.Replaced ns (w ++ ·) t u) (front : Text) (hf : front ≠ [])
    (h : Copied (front ++ t)) : Copied (front ++ u) := by
  obtain ⟨hn, hl⟩ := Pen.neat_append Pen.start front t ▸ h.fair.neat |> Bool.and_eq_true_iff.mp
  have hs : (Pen.start.steps front).watch.Sane := by
    rw [Pen.watch_steps]
    exact Watch.sane_steps _ _ Watch.sane_start
  obtain ⟨hnu, hlu⟩ := Pen.neat_replaced ns hw hns hr _ _ hs (Pen.Like.refl _) hl
  rw [← Pen.steps_append, ← Pen.steps_append] at hlu
  have hlast : (front ++ u).getLast? = (front ++ t).getLast? := by
    rw [List.getLast?_append, List.getLast?_append,
      hr.getLast?_eq fun n hm => ⟨(hns n hm).ne_nil, List.suffix_append w n⟩]
  have hhead : (front ++ u).head? = (front ++ t).head? := by
    rw [List.head?_append_of_ne_nil _ hf, List.head?_append_of_ne_nil _ hf]
  have hwatch : Watch.start.steps (front ++ u) = Watch.start := by
    have he := hlu.watch_eq
    rw [Pen.watch_steps, Pen.watch_steps] at he
    exact he.symm.trans h.fair.closed
  refine ⟨⟨?_, hwatch, by rw [hlast]; exact h.fair.ends⟩, ?_, fun c hc => ?_⟩
  · rw [Pen.neat_append, hn, hnu]
    rfl
  · rw [Text.trimmed_iff, hhead, hlast]
    exact (Text.trimmed_iff _).mp h.trimmed
  · rcases List.mem_append.mp hc with hc | hc
    · exact h.plain c (by simp [hc])
    · rcases hr.mem c hc with hc | ⟨n, hm, hc⟩
      · exact h.plain c (by simp [hc])
      · rcases List.mem_append.mp hc with hc | hc
        · exact plain_of_solid c (Text.isBlank_word c (hw.2 c hc))
        · exact plain_of_solid c ((hns n hm).bare c hc).2

end Scan

namespace Animation
open Scan

/-- A declaration is taken as it stands whether it has been renamed or not. -/
theorem copied_renameLine (ns : List Text) {w : Text} (hw : Text.IsWordText w)
    (hns : ∀ n ∈ ns, n.Settles) (d : Declaration) (t : Text)
    (ht : d.text = t ++ [';']) (hc : Copied t) (hn : t ≠ []) :
    ∃ s, (renameLine ns (w ++ ·) d).text = s ++ [';'] ∧ Copied s ∧ s ≠ [] := by
  rw [renameLine]
  split_ifs with h
  · obtain ⟨k, hd⟩ := d.text_of_refers t ht h
    have htk : t = d.head ++ [':'] ++ d.value ++ List.replicate k ';' := by
      rw [ht, List.replicate_succ', ← List.append_assoc] at hd
      simpa using List.append_inj_left' hd rfl
    obtain rfl : k = 0 := by
      by_contra hk
      obtain ⟨m, rfl⟩ := Nat.exists_eq_succ_of_ne_zero hk
      refine hc.fair.last_ne_semicolon ?_
      rw [htk, Nat.succ_eq_add_one, List.replicate_succ', ← List.append_assoc, List.getLast?_concat]
    rw [List.replicate_zero, List.append_nil] at htk
    refine ⟨d.head ++ [':'] ++ Text.replaceNames ns (w ++ ·) d.value, by simp, ?_, by simp⟩
    have hr := Text.replaced_replaceFrom ns (w ++ ·) d.value false fun n hm => (hns n hm).ne_nil
    exact copied_replaced ns hw hns hr _ (by simp) (htk ▸ hc)
  · exact ⟨t, ht, hc, hn⟩

end Animation
end NestedCss
