import Mathlib.Data.List.SplitBy
import Mathlib.Data.List.TakeWhile
import NestedCss.Text.Names

/-!
# Runs of name characters

A text falls into the longest runs of name characters that it holds, with each other character by
itself. Where the names to replace are made of name characters, a name is whole just where it is
one of the runs. So replacing names maps the runs, however the names begin each other, and no
replaced name is looked at again.
-/

set_option autoImplicit false

namespace NestedCss.Text

/-- A word: one or more word characters. -/
def IsWordText (w : Text) : Prop := w ≠ [] ∧ ∀ c ∈ w, isWord c = true

instance (w : Text) : Decidable (IsWordText w) := inferInstanceAs (Decidable (_ ∧ _))

/-- A text begins with the longest run of characters of some sort. -/
theorem exists_run (p : Char → Bool) (t : Text) :
    ∃ w s, t = w ++ s ∧ (∀ c ∈ w, p c = true) ∧ ∀ c ∈ s.head?, p c = false := by
  refine ⟨t.takeWhile p, t.dropWhile p, List.takeWhile_append_dropWhile.symm,
    fun c => List.mem_takeWhile_imp, fun c hc => ?_⟩
  have h := List.head?_dropWhile_not p t
  rw [Option.mem_def.mp hc] at h
  simpa using h

/-- Induction over a text by the longest runs of characters of some sort. -/
theorem run_induction (p : Char → Bool) {P : Text → Prop} (nil : P [])
    (other : ∀ c t, p c = false → P t → P (c :: t))
    (run : ∀ w t, w ≠ [] → (∀ c ∈ w, p c = true) → (∀ c ∈ t.head?, p c = false) → P t → P (w ++ t))
    (t : Text) : P t := by
  induction hl : t.length using Nat.strong_induction_on generalizing t with
  | _ k ih =>
    subst hl
    obtain ⟨w, s, rfl, hw, hs⟩ := exists_run p t
    by_cases hn : w = []
    · subst hn
      cases s with
      | nil => exact nil
      | cons c s => exact other c s (hs c rfl) (ih s.length (by simp) s rfl)
    · have := List.length_pos_iff.mpr hn
      exact run w s hn hw hs (ih s.length (by simp; omega) s rfl)

/-- The longest runs of name characters in a text, and each other character by itself. -/
def runs (t : Text) : List Text := t.splitBy fun a b => isName a && isName b

/-- The text with each run that is one of the names replaced. -/
def mapRuns (ns : List Text) (f : Text → Text) (t : Text) : Text :=
  (runs t).flatMap fun run => if run ∈ ns then f run else run

theorem runs_name_append (w t : Text) (hn : w ≠ []) (hw : ∀ c ∈ w, isName c = true)
    (ht : ∀ c ∈ t.head?, isName c = false) : runs (w ++ t) = w :: runs t := by
  have hc : w.IsChain fun a b => isName a && isName b :=
    List.Pairwise.isChain
      (List.pairwise_of_forall_mem_list fun a ha b hb => by simp [hw a ha, hw b hb])
  rw [runs, List.splitBy_append fun a _ b hb => by simp [ht b hb], List.splitBy_of_isChain hn hc]
  rfl

theorem runs_cons (c : Char) (t : Text) (hc : isName c = false) :
    runs (c :: t) = [c] :: runs t := by
  have ha := List.splitBy_append (r := fun a b => isName a && isName b) (l := [c]) (m := t)
    fun a ha b _ => by simp_all
  rw [runs, ← List.singleton_append, ha, List.splitBy_of_isChain (by simp) (by simp)]
  rfl

/-- Where a run of name characters begins a text, a name is whole there just when it is the run. -/
theorem leads_run (n w t : Text) (hn : ∀ c ∈ n, isName c = true) (hw : ∀ c ∈ w, isName c = true)
    (ht : ∀ c ∈ t.head?, isName c = false) : leads n (w ++ t) = true ↔ n = w := by
  rw [leads, Bool.and_eq_true, List.isPrefixOf_iff_prefix, Bool.not_eq_true']
  constructor
  · rintro ⟨⟨s, hs⟩, hb⟩
    have hd : (w ++ t).drop n.length = s := by rw [← hs, List.drop_left]
    rw [hd] at hb
    rcases List.append_eq_append_iff.mp hs with ⟨v, rfl, rfl⟩ | ⟨v, rfl, rfl⟩
    · -- What is left of the run would follow the name.
      cases v with
      | nil => simp
      | cons c v => simp [hw c (by simp)] at hb
    · -- The name would hold a character that is none of a name.
      cases v with
      | nil => simp
      | cons c v => exact absurd (hn c (by simp)) (by simp [ht c (by simp)])
  · rintro rfl
    refine ⟨List.prefix_append _ _, ?_⟩
    rw [List.drop_left, Option.any_eq_false]
    simpa using ht

theorem foldl_longer_mem (l : List Text) (best : Option Text) (n : Text)
    (h : l.foldl longer best = some n) : best = some n ∨ n ∈ l := by
  induction l generalizing best with
  | nil => exact Or.inl h
  | cons m l ih =>
    rcases ih _ h with hm | hm
    · cases best with
      | none => exact Or.inr (by simp [Option.some.inj hm])
      | some b =>
        rw [longer] at hm
        split_ifs at hm
        · exact Or.inr (by simp [Option.some.inj hm])
        · exact Or.inl hm
    · exact Or.inr (List.mem_cons_of_mem _ hm)

/-- The longest name is one of those that begin the text and end there. -/
theorem leadingName_some (ns : List Text) (t n : Text) (h : leadingName ns t = some n) :
    n ∈ ns ∧ ∃ s, t = n ++ s ∧ ∀ d ∈ s.head?, isName d = false := by
  rcases foldl_longer_mem _ _ _ h with hn | hn
  · simp at hn
  · obtain ⟨hm, hl⟩ := List.mem_filter.mp hn
    rw [leads, Bool.and_eq_true, List.isPrefixOf_iff_prefix, Bool.not_eq_true'] at hl
    obtain ⟨⟨s, rfl⟩, hb⟩ := hl
    rw [List.drop_left, Option.any_eq_false] at hb
    exact ⟨hm, s, rfl, by simpa using hb⟩

theorem foldl_longer (l : List Text) (w : Text) (h : ∀ n ∈ l, n = w) :
    l.foldl longer (some w) = some w := by
  induction l with
  | nil => rfl
  | cons n l ih =>
    obtain rfl := h n (by simp)
    rw [List.foldl_cons, longer, if_neg (Nat.lt_irrefl _)]
    exact ih fun m hm => h m (by simp [hm])

theorem leadingName_run (ns : List Text) (w t : Text) (hn : ∀ n ∈ ns, ∀ c ∈ n, isName c = true)
    (hw : ∀ c ∈ w, isName c = true) (ht : ∀ c ∈ t.head?, isName c = false) :
    leadingName ns (w ++ t) = if w ∈ ns then some w else none := by
  have hf : ns.filter (leads · (w ++ t)) = ns.filter (· = w) := by
    apply List.filter_congr
    intro n hm
    rw [Bool.eq_iff_iff, leads_run n w t (hn n hm) hw ht, decide_eq_true_eq]
  rw [leadingName, hf]
  split_ifs with h
  · have hm : w ∈ ns.filter (· = w) := List.mem_filter.mpr ⟨h, decide_eq_true rfl⟩
    have hall : ∀ m ∈ ns.filter (· = w), m = w :=
      fun m hm => of_decide_eq_true (List.mem_filter.mp hm).2
    obtain ⟨n, l, hl⟩ := List.exists_cons_of_ne_nil (List.ne_nil_of_mem hm)
    rw [hl] at hall ⊢
    rw [List.foldl_cons, hall n (by simp)]
    exact foldl_longer l w fun m hm => hall m (by simp [hm])
  · rw [List.filter_eq_nil_iff.mpr]
    · rfl
    · rintro n hm he
      exact h (of_decide_eq_true he ▸ hm)

variable (ns : List Text) (f : Text → Text)

/-- The characters of a name that has been replaced are passed over. -/
theorem replaceFrom_gone (w t : Text) (inName : Bool) :
    replaceFrom ns f inName w.length (w ++ t) =
      replaceFrom ns f (w.foldl (fun _ => isName) inName) 0 t := by
  induction w generalizing inName with
  | nil => rfl
  | cons c w ih => exact ih (isName c)

theorem foldl_isName (w : Text) (hw : ∀ c ∈ w, isName c = true) :
    w.foldl (fun _ => isName) true = true := by
  induction w with
  | nil => rfl
  | cons c w ih =>
    rw [List.foldl_cons, hw c (by simp)]
    exact ih fun d hd => hw d (by simp [hd])

theorem replaceFrom_within (w t : Text) (hw : ∀ c ∈ w, isName c = true) :
    replaceFrom ns f true 0 (w ++ t) = w ++ replaceFrom ns f true 0 t := by
  induction w with
  | nil => rfl
  | cons c w ih =>
    rw [List.cons_append, replaceFrom, hw c (by simp)]
    exact congrArg _ (ih fun d hd => hw d (by simp [hd]))

/-- A character that is none of a name stays, whatever stands before it. -/
theorem replaceFrom_cons (c : Char) (t : Text) (inName : Bool) (hc : isName c = false)
    (hn : ∀ n ∈ ns, n ≠ [] ∧ ∀ c ∈ n, isName c = true) :
    replaceFrom ns f inName 0 (c :: t) = c :: replaceFrom ns f false 0 t := by
  have hl : leadingName ns (c :: t) = none := by
    have h := leadingName_run ns [] (c :: t) (fun n hm => (hn n hm).2) (by simp) (by simp [hc])
    rw [if_neg fun hm => (hn [] hm).1 rfl] at h
    exact h
  cases inName <;> simp [replaceFrom, hl, hc]

/-- A run is replaced as a whole or not at all. -/
theorem replaceFrom_run (w t : Text) (hne : w ≠ []) (hw : ∀ c ∈ w, isName c = true)
    (ht : ∀ c ∈ t.head?, isName c = false) (hn : ∀ n ∈ ns, n ≠ [] ∧ ∀ c ∈ n, isName c = true) :
    replaceFrom ns f false 0 (w ++ t) =
      (if w ∈ ns then f w else w) ++ replaceFrom ns f false 0 t := by
  have hl := leadingName_run ns w t (fun n hm => (hn n hm).2) hw ht
  have hr : replaceFrom ns f true 0 t = replaceFrom ns f false 0 t := by
    cases t with
    | nil => rfl
    | cons c t =>
      rw [replaceFrom_cons ns f c t true (ht c rfl) hn,
        replaceFrom_cons ns f c t false (ht c rfl) hn]
  obtain ⟨c, v, rfl⟩ := List.exists_cons_of_ne_nil hne
  have hv : ∀ d ∈ v, isName d = true := fun d hd => hw d (by simp [hd])
  rw [List.cons_append] at hl ⊢
  simp only [replaceFrom, Bool.false_eq_true, if_false, hl, hw c (by simp)]
  split_ifs with h
  · have hg := replaceFrom_gone ns f v t true
    rw [foldl_isName v hv] at hg
    simp only [List.length_cons, Nat.add_sub_cancel, hg, hr]
  · simp only [replaceFrom_within ns f v t hv, hr, List.cons_append]

/-- Replacing names that are made of name characters maps the runs of the text. -/
theorem replaceNames_eq_mapRuns (t : Text) (hn : ∀ n ∈ ns, n ≠ [] ∧ ∀ c ∈ n, isName c = true) :
    replaceNames ns f t = mapRuns ns f t := by
  rw [replaceNames]
  induction t using run_induction isName with
  | nil => rfl
  | other c t hc ih =>
    have hm : [c] ∉ ns := fun hm => by simpa [hc] using (hn [c] hm).2 c
    rw [replaceFrom_cons ns f c t false hc hn, ih, mapRuns, mapRuns, runs_cons c t hc,
      List.flatMap_cons, if_neg hm]
    rfl
  | run w t hne hw ht ih =>
    rw [replaceFrom_run ns f w t hne hw ht hn, ih, mapRuns, mapRuns, runs_name_append w t hne hw ht,
      List.flatMap_cons]

example : mapRuns ["fade".toList, "fade-in".toList] ("s_".toList ++ ·)
    "fade-in 2s, fade, fader".toList = "s_fade-in 2s, s_fade, fader".toList := by decide +kernel

/-- Whether a text comes of another when some names in it are replaced. -/
inductive Replaced : Text → Text → Prop where
  | nil : Replaced [] []
  | keep (c : Char) (t u : Text) (h : Replaced t u) : Replaced (c :: t) (c :: u)
  | name (n t u : Text) (hn : n ∈ ns) (h : Replaced t u) : Replaced (n ++ t) (f n ++ u)

/-- At each place a character stays or a name goes, whatever is put for it. -/
theorem replaceFrom_cases (hn : ∀ n ∈ ns, n ≠ []) (c : Char) (t : Text) (inName : Bool) :
    (∀ f, replaceFrom ns f inName 0 (c :: t) = c :: replaceFrom ns f (isName c) 0 t) ∨
    inName = false ∧ ∃ n ∈ ns, ∃ s, c :: t = n ++ s ∧ (∀ d ∈ s.head?, isName d = false) ∧
      ∀ f, replaceFrom ns f inName 0 (c :: t) =
        f n ++ replaceFrom ns f (n.foldl (fun _ => isName) false) 0 s := by
  cases inName with
  | true => exact Or.inl fun f => by simp [replaceFrom]
  | false =>
    cases hl : leadingName ns (c :: t) with
    | none => exact Or.inl fun f => by simp [replaceFrom, hl]
    | some n =>
      obtain ⟨hm, s, hs, hd⟩ := leadingName_some ns _ n hl
      refine Or.inr ⟨rfl, n, hm, s, hs, hd, fun f => ?_⟩
      obtain ⟨a, v, rfl⟩ := List.exists_cons_of_ne_nil (hn n hm)
      obtain ⟨rfl, rfl⟩ := List.cons.inj hs
      have hg := replaceFrom_gone ns f v s (isName c)
      simp only [replaceFrom, Bool.false_eq_true, if_false, hl, List.length_cons,
        Nat.add_sub_cancel]
      exact congrArg _ hg

theorem replaced_replaceFrom (t : Text) (inName : Bool) (hn : ∀ n ∈ ns, n ≠ []) :
    Replaced ns f t (replaceFrom ns f inName 0 t) := by
  induction hl : t.length using Nat.strong_induction_on generalizing t inName with
  | _ k ih =>
    subst hl
    cases t with
    | nil => exact .nil
    | cons c t =>
      rcases replaceFrom_cases ns hn c t inName with h | ⟨-, n, hm, s, hs, -, h⟩
      · rw [h]
        exact .keep c t _ (ih t.length (by simp) t _ rfl)
      · have hlt : s.length < (c :: t).length := by
          have := List.length_pos_iff.mpr (hn n hm)
          rw [hs, List.length_append]
          omega
        rw [h, hs]
        exact .name n s _ hm (ih s.length hlt s _ rfl)

variable {ns f}

theorem Replaced.mem {t u : Text} (h : Replaced ns f t u) (c : Char) (hc : c ∈ u) :
    c ∈ t ∨ ∃ n ∈ ns, c ∈ f n := by
  induction h with
  | nil => exact Or.inl hc
  | keep a t u _ ih =>
    rcases List.mem_cons.mp hc with rfl | hc
    · exact Or.inl (by simp)
    · exact (ih hc).imp_left (List.mem_cons_of_mem a)
  | name n t u hn _ ih =>
    rcases List.mem_append.mp hc with hc | hc
    · exact Or.inr ⟨n, hn, hc⟩
    · exact (ih hc).imp_left (List.mem_append_right n)

/-- Where names only get something in front, the text ends as it did. -/
theorem Replaced.getLast?_eq {t u : Text} (h : Replaced ns f t u)
    (hf : ∀ n ∈ ns, n ≠ [] ∧ n <:+ f n) : u.getLast? = t.getLast? := by
  induction h with
  | nil => rfl
  | keep c t u _ ih => rw [List.getLast?_cons, List.getLast?_cons, ih]
  | name n t u hn _ ih =>
    obtain ⟨hne, w, hw⟩ := hf n hn
    rw [List.getLast?_append, List.getLast?_append, ih, ← hw, List.getLast?_append_of_ne_nil w hne]

end NestedCss.Text
