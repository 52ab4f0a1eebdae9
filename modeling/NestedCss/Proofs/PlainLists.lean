import NestedCss.Proofs.Containment

/-!
# Plain lists

Where no prelude holds a backslash the cut ends a string where the reading does, and where each `&`
stands outside strings and brackets nothing that is put for it can open or close any. So a source
of such preludes is put together in shelter.
-/

set_option autoImplicit false

namespace NestedCss.Path

/-- Whether each `&` of a segment stands outside strings and brackets. -/
def exposed (w : Watch) : Text → Bool
  | [] => true
  | c :: r => (c != '&' || w == Watch.start) && exposed (w.step c) r

/-- A list without an escape whose segments show each `&`. -/
structure Plain (t : Text) : Prop where
  unescaped : '\\' ∉ t
  exposes : ∀ s ∈ Watch.start.cut t, exposed Watch.start s = true

/-- The watch that sees what a guard sees. -/
def Guard.watch (g : Guard) : Watch := ⟨g.quote.map fun q => (q, false), g.depth⟩

theorem Guard.cuts_watch (g : Guard) (c : Char) : g.watch.cuts c = g.cuts c := by
  obtain ⟨quote, depth⟩ := g
  have hn : ∀ w : Watch, (w == Watch.start) = (w.string.isNone && w.depth == 0) := by
    rintro ⟨string, depth⟩
    cases string <;> simp [Watch.start, BEq.beq]
  cases quote <;> simp [watch, Watch.cuts, cuts, hn]

theorem Guard.step_watch (g : Guard) (c : Char) (hc : c ≠ '\\') :
    (g.step c).watch = g.watch.step c := by
  obtain ⟨quote, depth⟩ := g
  cases quote with
  | none =>
    simp only [step, Watch.step, watch, Option.map_none]
    split_ifs <;> rfl
  | some q =>
    simp only [step, Watch.step, watch, Option.map_some]
    by_cases hq : c = q
    · subst hq
      simp [hc]
    · simp [hc, hq]

theorem cut_unescaped (g : Guard) (t : Text) (h : '\\' ∉ t) : cut g t = g.watch.cut t := by
  induction t generalizing g with
  | nil => rfl
  | cons c r ih =>
    rw [List.mem_cons, not_or] at h
    rw [cut, Watch.cut, Guard.cuts_watch, ih g h.2, ih (g.step c) h.2,
      Guard.step_watch g c (Ne.symm h.1)]

theorem entries_unescaped (t : Text) (h : '\\' ∉ t) : entries t = Watch.start.cut t :=
  cut_unescaped Guard.start t h

theorem fits_exposed (path t : Text) (w : Watch) (hp : Watch.start.Keeps path)
    (h : exposed w t = true) : fits path w t = true := by
  induction t generalizing w with
  | nil => rfl
  | cons c r ih =>
    rw [exposed, Bool.and_eq_true] at h
    rw [fits, ih (w.step c) h.2, Bool.and_true]
    by_cases hc : c = '&'
    · subst hc
      obtain rfl : w = Watch.start := by simpa using h.1
      rw [hp.1, hp.2]
      rfl
    · simp [hc]

/-! ## Characters of attached lists -/

theorem mem_joined (c : Char) (ts : List Text) :
    c ∈ joined ts → c = ',' ∨ ∃ t ∈ ts, c ∈ t := by
  intro h
  induction ts with
  | nil => simp [joined, Text.join] at h
  | cons t ts ih =>
    cases ts with
    | nil => exact Or.inr ⟨t, by simp, by simpa [joined, Text.join] using h⟩
    | cons u ts =>
      rw [Watch.joined_cons, List.mem_append, List.mem_cons] at h
      rcases h with h | rfl | h
      · exact Or.inr ⟨t, by simp, h⟩
      · exact Or.inl rfl
      · rcases ih h with hc | ⟨s, hs, hc⟩
        · exact Or.inl hc
        · exact Or.inr ⟨s, by simp [hs], hc⟩

theorem mem_joined_of_mem (c : Char) (t : Text) (ts : List Text) (ht : t ∈ ts) (h : c ∈ t) :
    c ∈ joined ts := by
  induction ts with
  | nil => simp at ht
  | cons s ts ih =>
    cases ts with
    | nil =>
      obtain rfl := List.mem_singleton.mp ht
      simpa [joined, Text.join] using h
    | cons u ts =>
      rw [Watch.joined_cons, List.mem_append, List.mem_cons]
      rcases List.mem_cons.mp ht with rfl | ht
      · exact Or.inl h
      · exact Or.inr (Or.inr (ih ht))

theorem mem_entry (c : Char) (t e : Text) (he : e ∈ entries t) (h : c ∈ e) : c ∈ t := by
  have hj := mem_joined_of_mem c e (entries t) he h
  rwa [entries, joined_cut] at hj

theorem mem_attach (c : Char) (path segment : Text) (h : c ∈ attach path segment) :
    c ∈ path ∨ c ∈ segment ∨ c = ' ' := by
  rw [attach] at h
  split_ifs at h
  · obtain ⟨front, back, ht, -, -⟩ := Watch.trim_split (putParent path segment)
    have hp : c ∈ putParent path segment := by
      rw [ht]
      simp [h]
    obtain ⟨a, ha, hc⟩ := List.mem_flatMap.mp hp
    split_ifs at hc with he
    · exact Or.inl hc
    · rw [List.mem_singleton.mp hc]
      exact Or.inr (Or.inl ha)
  · simp only [List.mem_append, List.mem_cons] at h
    rcases h with h | rfl | h
    · exact Or.inl h
    · exact Or.inr (Or.inr rfl)
    · exact Or.inr (Or.inl h)
  · rcases List.mem_append.mp h with h | h
    · exact Or.inl h
    · exact Or.inr (Or.inl h)

theorem unescaped_attachList (path segment : Text) (hp : '\\' ∉ path) (hs : '\\' ∉ segment) :
    '\\' ∉ attachList path segment := by
  intro h
  rcases mem_joined _ _ h with h | ⟨q, hq, h⟩
  · exact absurd h (by decide)
  · simp only [pairings, List.mem_flatMap, List.mem_map] at hq
    obtain ⟨p, hpm, s, hsm, rfl⟩ := hq
    rcases mem_attach _ p s h with h | h | h
    · exact hp (mem_entry _ path p hpm h)
    · exact hs (mem_entry _ segment s hsm h)
    · exact absurd h (by decide)

/-- Plain lists are attached in shelter to a path without an escape. -/
theorem sheltered_plain (scope path : Text) (ts : List Text)
    (hb : ∀ c ∈ scope, Text.isBlank c = false) (hn : scope ≠ []) (h : Inside scope path)
    (hp : '\\' ∉ path) (ht : ∀ t ∈ ts, Watch.start.steps t = Watch.start ∧ Plain t) :
    sheltered path ts = true := by
  induction ts generalizing path with
  | nil => rfl
  | cons t ts ih =>
    obtain ⟨hc, hl⟩ := ht t (by simp)
    have hep := entries_unescaped path hp
    have het := entries_unescaped t hl.unescaped
    have hs : shelters path t = true := by
      simp only [shelters, hep, het, beq_self_eq_true, Bool.and_self, Bool.true_and,
        List.all_eq_true]
      intro p hpm s hsm
      exact fits_exposed p s Watch.start (h.keeps p hpm) (hl.exposes s hsm)
    have hi := inside_attachList scope path t hb hn h hc hs
    rw [sheltered, hs, Bool.true_and]
    exact ih _ hi (unescaped_attachList path t hp hl.unescaped) fun s hm => ht s (by simp [hm])

end NestedCss.Path

namespace NestedCss.Scope
open NestedCss.Path

variable {scope : Text}

theorem exposed_append (w : Watch) (s t : Text) :
    exposed w (s ++ t) = (exposed w s && exposed (w.steps s) t) := by
  induction s generalizing w with
  | nil => simp [exposed, Watch.steps]
  | cons c s ih => simp [exposed, ih, Watch.steps, Bool.and_assoc]

/-- Anchoring an entry leaves it whole and shows each `&` of it. -/
theorem anchorEntry_plain (hs : ∀ c ∈ scope, c ∉ Watch.heeded) (e : Text)
    (hk : Watch.start.Keeps e) (he : exposed Watch.start e = true) :
    Watch.start.Keeps (anchorEntry scope e) ∧
      exposed Watch.start (anchorEntry scope e) = true ∧
      ∀ c ∈ anchorEntry scope e, c ∈ e ∨ c = '&' := by
  rw [anchorEntry]
  split
  · next r h =>
    obtain rfl := after?_eq scope e r h
    have hw := (Watch.keeps_unheeded Watch.start scope rfl hs).2
    obtain ⟨hu, ht⟩ := hk
    rw [Watch.uncut_append, hw, Bool.and_eq_true] at hu
    rw [Watch.steps_append, hw] at ht
    rw [exposed_append, hw, Bool.and_eq_true] at he
    refine ⟨⟨hu.2, ht⟩, he.2, fun c hc => ?_⟩
    rcases List.mem_cons.mp hc with rfl | hc
    · exact Or.inr rfl
    · exact Or.inl (List.mem_append_right _ hc)
  · exact ⟨hk, he, fun c hc => Or.inl hc⟩

theorem anchor_plain (hs : ∀ c ∈ scope, c ∉ Watch.heeded) (stack : List Text) (t : Text)
    (hc : Watch.start.steps t = Watch.start) (h : Plain t) : Plain (anchor scope stack t) := by
  rw [anchor]
  split
  · exact h
  · have he := entries_unescaped t h.unescaped
    have ha : ∀ e ∈ entries t, _ := fun e hm => anchorEntry_plain hs e
      (Watch.keeps_of_mem_cut t e hc (he ▸ hm)) (h.exposes e (he ▸ hm))
    have hj : Watch.start.cut (anchorList scope t) = (entries t).map (anchorEntry scope) := by
      apply Watch.cut_joined
      · have hne : entries t ≠ [] := cut_ne_nil Guard.start t
        simpa using hne
      · intro p hp
        obtain ⟨e, hm, rfl⟩ := List.mem_map.mp hp
        exact (ha e hm).1
    constructor
    · intro hb
      rcases mem_joined _ _ hb with hb | ⟨p, hp, hb⟩
      · exact absurd hb (by decide)
      · obtain ⟨e, hm, rfl⟩ := List.mem_map.mp hp
        rcases (ha e hm).2.2 _ hb with hb | hb
        · exact h.unescaped (mem_entry _ t e hm hb)
        · exact absurd hb (by decide)
    · intro p hp
      rw [hj] at hp
      obtain ⟨e, hm, rfl⟩ := List.mem_map.mp hp
      exact (ha e hm).2.1

end NestedCss.Scope

namespace NestedCss.Containment
open NestedCss.Scan NestedCss.Filing NestedCss.Path

variable {scope : Text}

/-- Plain preludes are put together in shelter whatever their order and nesting. -/
theorem sheltered_of_plain (h : IsClass scope) (ts : List Statement)
    (hp : ∀ t line, .opening t line ∈ ts → Watch.start.steps t = Watch.start ∧ Plain t) :
    Sheltered scope ts := by
  intro p hm _
  have hn : '\\' ∉ scope := fun hb => unheeded_class h '\\' hb (by decide)
  apply sheltered_plain scope scope _ (blank_class h) (ne_nil_class h) (inside_class h) hn
  intro t ht
  apply forall_stack scope (fun a => Watch.start.steps a = Watch.start ∧ Plain a) p.2 _ _ t
    (List.mem_of_mem_filter ht)
  · intro stack a ⟨hc, ha⟩
    refine ⟨?_, Scope.anchor_plain (unheeded_class h) stack a hc ha⟩
    rwa [Scope.steps_anchor scope a stack (ne_nil_class h) (unheeded_class h)]
  · intro a ha
    obtain ⟨line, hl⟩ := mem_path ts p a hm ha
    exact hp a line hl

/-- A source that is read without a fault and has no escape in its preludes and no `&` within
strings and brackets is put together in shelter. -/
theorem plain_source_sheltered (h : IsClass scope) (source : Text)
    (hf : (readSource source).faults = [])
    (hp : ∀ t line, .opening t line ∈ (readSource source).statements → Plain t) :
    Sheltered scope (readSource source).statements :=
  sheltered_of_plain h _ fun t line hl => ⟨opening_closed source t line hf hl, hp t line hl⟩

end NestedCss.Containment
