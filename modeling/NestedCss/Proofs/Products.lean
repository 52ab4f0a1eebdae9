import Mathlib.Algebra.BigOperators.Group.List.Basic
import NestedCss.Proofs.Anchors

/-!
# Products of lists

A list of selectors is closed when its quotes are closed and each of its brackets closes one that is
open. Such a list is cut into closed entries, and a closed path may be put for an `&` at any depth
of brackets: what it holds stays as far inside as it was. So the entries of a composed stack are one
for every choice of an entry from each list, each choice attached from the bottom up.
-/

set_option autoImplicit false

namespace NestedCss.Path

namespace Guard

/-- Whether every bracket that closes in the text closes one that is open. -/
def opened (g : Guard) : Text → Bool
  | [] => true
  | c :: r =>
    !(g.quote.isNone && g.depth == 0 && Mark.closers.contains c) && opened (g.step c) r

/-- Whether no `&` of the text stands inside quotes. -/
def bare (g : Guard) : Text → Bool
  | [] => true
  | c :: r => (c != '&' || g.quote.isNone) && bare (g.step c) r

/-- The guard with so many more brackets open around it. -/
def within (g : Guard) (n : Nat) : Guard := { g with depth := g.depth + n }

variable {g : Guard} {s t : Text}

theorem opened_append : g.opened (s ++ t) = (g.opened s && (g.steps s).opened t) := by
  induction s generalizing g with
  | nil => simp [opened, steps]
  | cons c s ih => simp [opened, ih, steps, Bool.and_assoc]

theorem sane_steps (hs : g.Sane) : (g.steps t).Sane := by
  induction t generalizing g with
  | nil => exact hs
  | cons c t ih => exact ih (sane_step g c hs)

theorem step_within (n : Nat) (c : Char)
    (h : (g.quote.isNone && g.depth == 0 && Mark.closers.contains c) = false) :
    (g.within n).step c = (g.step c).within n := by
  obtain ⟨quote, depth⟩ := g
  cases quote with
  | some q =>
    simp only [step, within]
    split_ifs <;> rfl
  | none =>
    simp only [step, within]
    split_ifs with hq ho hc
    · rfl
    · rw [Nat.add_right_comm]
    · have hd : depth ≠ 0 := by
        rintro rfl
        simp at h
        simp [h] at hc
      rw [show depth + n - 1 = depth - 1 + n by omega]
    · rfl

/-- A closed text does the same within brackets, and no comma that is kept cuts there. -/
theorem steps_within (n : Nat) (h : g.opened t = true) :
    (g.within n).steps t = (g.steps t).within n ∧ (g.within n).opened t = true ∧
      (g.uncut t = true → (g.within n).uncut t = true) := by
  induction t generalizing g with
  | nil => exact ⟨rfl, rfl, id⟩
  | cons c t ih =>
    rw [opened, Bool.and_eq_true, Bool.not_eq_true'] at h
    have hs := step_within n c h.1
    obtain ⟨hst, ho, hu⟩ := ih h.2
    refine ⟨?_, ?_, fun hc => ?_⟩
    · rw [steps, List.foldl_cons, hs]
      exact hst
    · rw [opened, hs, ho, Bool.and_true, Bool.not_eq_true']
      obtain ⟨quote, depth⟩ := g
      cases quote <;> simp_all [within]
    · rw [uncut, Bool.and_eq_true, Bool.not_eq_true'] at hc
      rw [uncut, hs, hu hc.2, Bool.and_true, Bool.not_eq_true']
      obtain ⟨quote, depth⟩ := g
      cases quote <;> simp_all [within, cuts]

end Guard

/-- Whether the quotes of a text end closed and its brackets close one another. -/
def Closed (t : Text) : Prop :=
  Guard.start.opened t = true ∧ Guard.start.steps t = Guard.start

instance (t : Text) : Decidable (Closed t) := inferInstanceAs (Decidable (_ ∧ _))

/-- Whether a text is closed and no comma cuts it. -/
def Entire (t : Text) : Prop := Closed t ∧ Guard.start.uncut t = true

/-- A text of closed entries is cut into its entries. -/
theorem pieces_entire (es : List Text) (hn : es ≠ []) (h : ∀ e ∈ es, Entire e) :
    Guard.Pieces Guard.start es := by
  induction es with
  | nil => exact absurd rfl hn
  | cons e es ih =>
    have he := h e (by simp)
    cases es with
    | nil => exact he.2
    | cons f es => exact ⟨he.2, he.1.2, ih (by simp) fun a ha => h a (by simp [ha])⟩

theorem entries_joined (es : List Text) (hn : es ≠ []) (h : ∀ e ∈ es, Entire e) :
    entries (joined es) = es :=
  Guard.cut_pieces _ _ (pieces_entire es hn h)

/-- A text that ends closed is cut into entries that do, and the cut opens no quote for an `&`. -/
theorem cut_closed (g : Guard) (t : Text) (ho : g.opened t = true) (hb : g.bare t = true)
    (hs : g.steps t = Guard.start) :
    ∃ e es, cut g t = e :: es ∧ g.opened e = true ∧ g.bare e = true ∧ g.uncut e = true ∧
      g.steps e = Guard.start ∧ ∀ f ∈ es, Entire f ∧ Guard.start.bare f = true := by
  induction t generalizing g with
  | nil => exact ⟨[], [], rfl, rfl, rfl, rfl, hs, by simp⟩
  | cons c r ih =>
    rw [Guard.opened, Bool.and_eq_true] at ho
    rw [Guard.bare, Bool.and_eq_true] at hb
    obtain ⟨e, es, he, heo, heb, heu, hes, hf⟩ := ih (g.step c) ho.2 hb.2 hs
    rw [cut]
    cases hc : g.cuts c with
    | true =>
      obtain ⟨rfl, rfl⟩ := (Guard.cuts_iff g c).mp hc
      refine ⟨[], e :: es, by rw [if_pos rfl]; exact congrArg _ he, rfl, rfl, rfl, rfl, ?_⟩
      intro f hm
      rcases List.mem_cons.mp hm with rfl | hm
      · exact ⟨⟨⟨heo, hes⟩, heu⟩, heb⟩
      · exact hf f hm
    | false =>
      refine ⟨c :: e, es, by rw [if_neg (by simp), he]; rfl, ?_, ?_, ?_, hes, hf⟩
      · rw [Guard.opened, ho.1, heo]
        rfl
      · rw [Guard.bare, hb.1, heb]
        rfl
      · rw [Guard.uncut, hc, heu]
        rfl

theorem entire_entries (t : Text) (h : Closed t) (hb : Guard.start.bare t = true) :
    ∀ e ∈ entries t, Entire e ∧ Guard.start.bare e = true := by
  obtain ⟨e, es, he, heo, heb, heu, hes, hf⟩ := cut_closed Guard.start t h.1 hb h.2
  intro a ha
  rw [entries, he] at ha
  rcases List.mem_cons.mp ha with rfl | ha
  · exact ⟨⟨⟨heo, hes⟩, heu⟩, heb⟩
  · exact hf a ha

/-! ## Attaching -/

theorem entire_append (s t : Text) (hs : Entire s) (ht : Entire t) : Entire (s ++ t) := by
  obtain ⟨⟨hso, hss⟩, hsu⟩ := hs
  obtain ⟨⟨hto, hts⟩, htu⟩ := ht
  refine ⟨⟨?_, ?_⟩, ?_⟩
  · rw [Guard.opened_append, hso, hss, hto]
    rfl
  · rw [Guard.steps_append, hss, hts]
  · rw [Guard.uncut_append, hsu, hss, htu]
    rfl

/-- What a guard does at an `&` outside quotes it does at a closed path. -/
theorem guard_put (path segment : Text) (g : Guard) (hp : Entire path)
    (ho : g.opened segment = true) (hb : g.bare segment = true) (hu : g.uncut segment = true) :
    g.opened (putParent path segment) = true ∧ g.uncut (putParent path segment) = true ∧
      g.steps (putParent path segment) = g.steps segment := by
  induction segment generalizing g with
  | nil => exact ⟨rfl, rfl, rfl⟩
  | cons c r ih =>
    rw [Guard.opened, Bool.and_eq_true] at ho
    rw [Guard.bare, Bool.and_eq_true] at hb
    rw [Guard.uncut, Bool.and_eq_true] at hu
    obtain ⟨hro, hru, hrs⟩ := ih (g.step c) ho.2 hb.2 hu.2
    by_cases hc : c = '&'
    · subst hc
      have hq : g.quote = none := by simpa using hb.1
      have hg : g = Guard.start.within g.depth := by
        obtain ⟨quote, depth⟩ := g
        obtain rfl : quote = none := hq
        simp [Guard.within, Guard.start]
      have ha : g.step '&' = g := by
        rw [Guard.step, hq]
        rfl
      obtain ⟨hws, hwo, hwu⟩ := Guard.steps_within g.depth hp.1.1
      rw [hp.1.2, ← hg] at hws
      rw [← hg] at hwo hwu
      rw [ha] at hro hru hrs
      rw [putParent_parent]
      refine ⟨?_, ?_, ?_⟩
      · rw [Guard.opened_append, hwo, hws, hro]
        rfl
      · rw [Guard.uncut_append, hwu hp.2, hws, hru]
        rfl
      · rw [Guard.steps_append, hws, hrs]
        exact congrArg (fun h => h.steps r) ha.symm
    · rw [putParent_cons path r c hc]
      refine ⟨?_, ?_, hrs⟩
      · rw [Guard.opened, ho.1, hro]
        rfl
      · rw [Guard.uncut, hu.1, hru]
        rfl

theorem entire_trim (t : Text) (h : Entire t) : Entire (Text.trim t) := by
  obtain ⟨front, back, ht, hf, hb⟩ := Watch.trim_split t
  obtain ⟨⟨ho, hs⟩, hu⟩ := h
  have hfk := (Guard.start_unheeded front fun c hc => Watch.unheeded_blank c (hf c hc)).2
  have hbk := Guard.keeps_unheeded (Guard.start.steps (Text.trim t)) back
    (Guard.sane_steps Guard.sane_start) fun c hc => Watch.unheeded_blank c (hb c hc)
  rw [ht, Guard.opened_append, hfk, Guard.opened_append, Bool.and_eq_true, Bool.and_eq_true] at ho
  rw [ht, Guard.uncut_append, hfk, Guard.uncut_append, Bool.and_eq_true, Bool.and_eq_true] at hu
  rw [ht, Guard.steps_append, hfk, Guard.steps_append, hbk.2] at hs
  exact ⟨⟨ho.2.1, hs⟩, hu.2.1⟩

theorem entire_attach (path segment : Text) (hp : Entire path) (hs : Entire segment)
    (hb : Guard.start.bare segment = true) : Entire (attach path segment) := by
  rw [attach]
  split_ifs
  · obtain ⟨ho, hu, hst⟩ := guard_put path segment Guard.start hp hs.1.1 hb hs.2
    exact entire_trim _ ⟨⟨ho, hst.trans hs.1.2⟩, hu⟩
  · exact entire_append path _ hp (entire_append [' '] segment ⟨by decide, rfl⟩ hs)
  · exact entire_append path segment hp hs

theorem entries_attachList (path segment : Text) (hp : ∀ p ∈ entries path, Entire p)
    (hs : Closed segment) (hb : Guard.start.bare segment = true) :
    entries (attachList path segment) = pairings (entries path) (entries segment) ∧
      ∀ q ∈ entries (attachList path segment), Entire q := by
  have hq : ∀ q ∈ pairings (entries path) (entries segment), Entire q := by
    intro q hq
    simp only [pairings, List.mem_flatMap, List.mem_map] at hq
    obtain ⟨p, hpm, s, hsm, rfl⟩ := hq
    obtain ⟨he, hbe⟩ := entire_entries segment hs hb s hsm
    exact entire_attach p s (hp p hpm) he hbe
  have he := entries_joined _ (pairings_ne_nil path segment) hq
  exact ⟨he, he ▸ hq⟩

/-! ## Choices -/

/-- All the ways to choose one of each of some lists. The choice from the last list changes
first. -/
def choices : List (List Text) → List (List Text)
  | [] => [[]]
  | es :: ls => es.flatMap fun e => (choices ls).map fun c => e :: c

/-- Some entries attached from the bottom up. -/
def attached : List Text → Text
  | [] => []
  | e :: es => es.foldl attach e

theorem length_choices (ls : List (List Text)) :
    (choices ls).length = (ls.map List.length).prod := by
  induction ls with
  | nil => rfl
  | cons es ls ih => simp [choices, List.length_flatMap, ih]

/-- From a path on, every entry of it goes through all the choices in turn. -/
theorem entries_foldl (path : Text) (ts : List Text) (hp : ∀ p ∈ entries path, Entire p)
    (ht : ∀ t ∈ ts, Closed t ∧ Guard.start.bare t = true) :
    entries (ts.foldl attachList path) =
      (entries path).flatMap fun p => (choices (ts.map entries)).map fun c => c.foldl attach p := by
  induction ts generalizing path with
  | nil => simp [choices]
  | cons t ts ih =>
    obtain ⟨hc, hb⟩ := ht t (by simp)
    obtain ⟨he, hq⟩ := entries_attachList path t hp hc hb
    rw [List.foldl_cons, ih _ hq fun s hs => ht s (by simp [hs]), he]
    simp [pairings, choices, List.flatMap_assoc, List.map_flatMap, List.flatMap_map,
      Function.comp_def]

theorem entries_compose (t : Text) (ts : List Text)
    (h : ∀ s ∈ t :: ts, Closed s ∧ Guard.start.bare s = true) :
    entries (compose (t :: ts)) = (choices ((t :: ts).map entries)).map attached ∧
      (entries (compose (t :: ts))).length =
        ((t :: ts).map fun s => (entries s).length).prod := by
  obtain ⟨hc, hb⟩ := h t (by simp)
  have he : entries (compose (t :: ts)) = (choices ((t :: ts).map entries)).map attached := by
    rw [compose, entries_foldl t ts (fun p hp => (entire_entries t hc hb p hp).1)
      fun s hs => h s (by simp [hs])]
    simp [choices, List.map_flatMap, attached, Function.comp_def]
  refine ⟨he, ?_⟩
  rw [he, List.length_map, length_choices, List.map_map]
  rfl

theorem entries_compose_of_cards :
    (∀ s ∈ [".a[x=\"),\"],.b".toList, "&:is(.c,&),>i".toList],
      Closed s ∧ Guard.start.bare s = true) ∧
    entries (compose [".a[x=\"),\"],.b".toList, "&:is(.c,&),>i".toList]) =
      (choices [entries ".a[x=\"),\"],.b".toList, entries "&:is(.c,&),>i".toList]).map attached ∧
    (entries (compose [".a[x=\"),\"],.b".toList, "&:is(.c,&),>i".toList])).length = 4 := by
  have h : ∀ s ∈ [".a[x=\"),\"],.b".toList, "&:is(.c,&),>i".toList],
      Closed s ∧ Guard.start.bare s = true := by decide
  obtain ⟨he, hl⟩ := entries_compose _ _ h
  exact ⟨h, he, hl.trans (by decide)⟩

end NestedCss.Path
