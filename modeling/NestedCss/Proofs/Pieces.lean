import NestedCss.Proofs.Watching

/-!
# Pieces of a list

A list is cut at its commas outside quotes and brackets, so a text that ends outside of them is
parted from what follows a comma, and no piece is cut again. So cutting a list and joining its
pieces undo each other, even where the list leaves quotes or brackets open at its end.
-/

set_option autoImplicit false

namespace NestedCss.Path

namespace Guard

def uncut (g : Guard) : Text → Bool
  | [] => true
  | c :: r => !g.cuts c && uncut (g.step c) r

theorem uncut_append (g : Guard) (s t : Text) :
    g.uncut (s ++ t) = (g.uncut s && (g.steps s).uncut t) := by
  induction s generalizing g with
  | nil => simp [uncut, steps]
  | cons c s ih => simp [uncut, ih, steps, Bool.and_assoc]

theorem cuts_iff (g : Guard) (c : Char) : g.cuts c = true ↔ g = start ∧ c = ',' := by
  obtain ⟨quote, depth⟩ := g
  simp [cuts, start]

/-! ## Cutting -/

/-- Whether some texts, joined, are cut into themselves. -/
def Pieces (g : Guard) : List Text → Prop
  | [] => False
  | [e] => g.uncut e = true
  | e :: es => g.uncut e = true ∧ g.steps e = start ∧ Pieces start es

theorem pieces_cut (g : Guard) (t : Text) : Pieces g (cut g t) := by
  induction t generalizing g with
  | nil => rfl
  | cons c r ih =>
    rw [cut]
    cases hc : g.cuts c with
    | true =>
      rw [((cuts_iff g c).mp hc).1, if_pos rfl]
      obtain ⟨e, es, he⟩ := List.exists_cons_of_ne_nil (cut_ne_nil start r)
      have hi := ih start
      rw [he] at hi ⊢
      exact ⟨rfl, rfl, hi⟩
    | false =>
      have hi := ih (g.step c)
      rw [if_neg (by simp)]
      obtain ⟨e, es, he⟩ := List.exists_cons_of_ne_nil (cut_ne_nil (g.step c) r)
      rw [he] at hi ⊢
      cases es with
      | nil =>
        show uncut g (c :: e) = true
        rw [uncut, hc]
        exact hi
      | cons f es =>
        obtain ⟨hu, hs, hp⟩ := hi
        refine ⟨?_, hs, hp⟩
        rw [uncut, hc, hu]
        rfl

theorem cut_uncut (g : Guard) (e : Text) (h : g.uncut e = true) : cut g e = [e] := by
  induction e generalizing g with
  | nil => rfl
  | cons c r ih =>
    simp only [uncut, Bool.and_eq_true, Bool.not_eq_true'] at h
    rw [cut, h.1, ih _ h.2]
    rfl

theorem cut_eq_singleton_iff (g : Guard) (e : Text) : cut g e = [e] ↔ g.uncut e = true := by
  refine ⟨fun h => ?_, cut_uncut g e⟩
  have hp := pieces_cut g e
  rwa [h] at hp

theorem cut_comma (g : Guard) (e t : Text) (h : g.uncut e = true) (hs : g.steps e = start) :
    cut g (e ++ ',' :: t) = e :: cut start t := by
  induction e generalizing g with
  | nil =>
    have hg : g = start := hs
    rw [hg]
    rfl
  | cons c r ih =>
    simp only [uncut, Bool.and_eq_true, Bool.not_eq_true'] at h
    rw [List.cons_append, cut, h.1, ih _ h.2 hs]
    rfl

theorem cut_pieces (g : Guard) (es : List Text) (h : Pieces g es) : cut g (joined es) = es := by
  induction es generalizing g with
  | nil => exact h.elim
  | cons e es ih =>
    cases es with
    | nil => simpa [joined, Text.join] using cut_uncut g e h
    | cons f es =>
      obtain ⟨hu, hs, hp⟩ := h
      rw [Watch.joined_cons, cut_comma g e _ hu hs, ih start hp]

theorem cut_joined_iff (g : Guard) (es : List Text) : cut g (joined es) = es ↔ Pieces g es := by
  refine ⟨fun h => ?_, cut_pieces g es⟩
  have hp := pieces_cut g (joined es)
  rwa [h] at hp

/-- Pieces are cut nowhere, and all but the last end outside quotes and brackets. -/
theorem pieces_iff (es : List Text) :
    Pieces start es ↔ es ≠ [] ∧ (∀ e ∈ es, start.uncut e = true) ∧
      ∀ e ∈ es.dropLast, start.steps e = start := by
  induction es with
  | nil => simp [Pieces]
  | cons e es ih =>
    cases es with
    | nil => simp [Pieces]
    | cons f es =>
      have hp : Pieces start (e :: f :: es) ↔
          start.uncut e = true ∧ start.steps e = start ∧ Pieces start (f :: es) := Iff.rfl
      simp only [hp, ih, List.dropLast_cons_cons, List.forall_mem_cons]
      constructor
      · rintro ⟨hu, hs, -, hus, hss⟩
        exact ⟨by simp, ⟨hu, hus⟩, hs, hss⟩
      · rintro ⟨-, ⟨hu, hus⟩, hs, hss⟩
        exact ⟨hu, hs, by simp, hus, hss⟩

/-- Pieces that do to a guard what other pieces do are pieces as well. -/
theorem pieces_map (f : Text → Text) (es : List Text)
    (hf : ∀ e, start.uncut (f e) = start.uncut e ∧ start.steps (f e) = start.steps e)
    (h : Pieces start es) : Pieces start (es.map f) := by
  induction es with
  | nil => exact h
  | cons e es ih =>
    cases es with
    | nil => exact (hf e).1.trans h
    | cons f' es =>
      obtain ⟨hu, hs, hp⟩ := h
      exact ⟨(hf e).1.trans hu, (hf e).2.trans hs, ih hp⟩

/-! ## What is not heeded -/

/-- A guard as it comes from the start: a string is open by a quote. -/
def Sane (g : Guard) : Prop := ∀ q, g.quote = some q → q ∈ Mark.quotes

theorem sane_start : start.Sane := by simp [Sane, start]

theorem sane_step (g : Guard) (c : Char) (h : g.Sane) : (g.step c).Sane := by
  intro q hq
  simp only [step] at hq
  split at hq
  · next q' hs =>
    split_ifs at hq
    exact h q hq
  · split_ifs at hq <;> simp_all

theorem step_unheeded (g : Guard) (c : Char) (hg : g.Sane) (hc : c ∉ Watch.heeded) :
    g.step c = g ∧ g.cuts c = false := by
  simp only [Watch.heeded, List.mem_append, List.mem_cons, List.not_mem_nil, or_false, not_or] at hc
  obtain ⟨⟨⟨hq, ho⟩, hl⟩, -, hn⟩ := hc
  refine ⟨?_, by simp [cuts, hn]⟩
  cases hs : g.quote with
  | none => simp [step, hs, hq, ho, hl]
  | some q =>
    have hcq : c ≠ q := fun he => hq (he ▸ hg q hs)
    simp [step, hs, hcq]

theorem keeps_unheeded (g : Guard) (s : Text) (hg : g.Sane) (hs : ∀ c ∈ s, c ∉ Watch.heeded) :
    g.uncut s = true ∧ g.steps s = g := by
  induction s with
  | nil => exact ⟨rfl, rfl⟩
  | cons c s ih =>
    obtain ⟨hst, hc⟩ := step_unheeded g c hg (hs c (by simp))
    obtain ⟨hu, hk⟩ := ih fun a ha => hs a (by simp [ha])
    exact ⟨by rw [uncut, hst, hc, hu]; rfl, by rw [steps, List.foldl_cons, hst]; exact hk⟩

theorem start_unheeded (s : Text) (h : ∀ c ∈ s, c ∉ Watch.heeded) :
    start.uncut s = true ∧ start.steps s = start :=
  keeps_unheeded start s sane_start h

end Guard

/-! ## Cutting and joining -/

/-- The entries of a text, joined, are the text again, and none of them is cut any further. Some
texts, joined, are cut into themselves exactly when there are any, each is left whole, and all but
the last end with quotes closed and no bracket open. -/
theorem entries_invert_joined (t : Text) (es : List Text) :
    joined (entries t) = t ∧ (∀ e ∈ entries t, entries e = [e]) ∧
      (entries (joined es) = es ↔ es ≠ [] ∧ (∀ e ∈ es, entries e = [e]) ∧
        ∀ e ∈ es.dropLast, Guard.start.steps e = Guard.start) := by
  have hw : ∀ e, entries e = [e] ↔ Guard.start.uncut e = true :=
    Guard.cut_eq_singleton_iff Guard.start
  have hj : entries (joined es) = es ↔ Guard.start.Pieces es := Guard.cut_joined_iff Guard.start es
  obtain ⟨-, hu, -⟩ := (Guard.pieces_iff _).mp (Guard.pieces_cut Guard.start t)
  refine ⟨joined_cut Guard.start t, fun e he => (hw e).mpr (hu e he), ?_⟩
  simp only [hj, hw]
  exact Guard.pieces_iff es

/-- A bracket that closes nothing, one that is never closed, and commas in both kinds of quotes. -/
theorem entries_invert_joined_of_cards :
    let t := ".a[x=\"),\"],b),:is(.c,'".toList
    let es := [".a[x=\"),\"]".toList, "b)".toList, [], ":is(.c,'".toList]
    (es ≠ [] ∧ (∀ e ∈ es, entries e = [e]) ∧
      ∀ e ∈ es.dropLast, Guard.start.steps e = Guard.start) ∧
    entries (joined es) = es ∧ ":is(.c,'".toList ∈ entries t ∧
      entries ":is(.c,'".toList = [":is(.c,'".toList] := by
  intro t es
  have he : es ≠ [] ∧ (∀ e ∈ es, entries e = [e]) ∧
      ∀ e ∈ es.dropLast, Guard.start.steps e = Guard.start := by decide
  have hm : ":is(.c,'".toList ∈ entries t := by decide
  obtain ⟨-, ht, hes⟩ := entries_invert_joined t es
  exact ⟨he, hes.mpr he, hm, ht _ hm⟩

end NestedCss.Path
