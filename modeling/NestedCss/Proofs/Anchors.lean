import NestedCss.Proofs.Joints
import NestedCss.Proofs.Pieces
import NestedCss.Proofs.PlainLists

/-!
# Anchors

Putting `&` for a leading scope changes neither where a list is cut nor whether it is a fair copy.
A list that the scope leads in every entry is anchored and comes back as it was when it is attached
to the scope.
-/

set_option autoImplicit false

namespace NestedCss.Path

open Scan

/-! ## Characters of composed lists -/

theorem mem_attachList (c : Char) (path t : Text) (h : c ∈ attachList path t) :
    c = ',' ∨ ∃ p ∈ entries path, ∃ e ∈ entries t, c ∈ attach p e := by
  rcases mem_joined c _ h with h | ⟨q, hq, h⟩
  · exact Or.inl h
  · simp only [pairings, List.mem_flatMap, List.mem_map] at hq
    obtain ⟨p, hp, e, he, rfl⟩ := hq
    exact Or.inr ⟨p, hp, e, he, h⟩

/-- What is composed holds only commas, spaces and what it is composed of. -/
theorem mem_foldl (c : Char) (path : Text) (ts : List Text)
    (h : c ∈ ts.foldl attachList path) : c = ',' ∨ c = ' ' ∨ c ∈ path ∨ ∃ t ∈ ts, c ∈ t := by
  induction ts generalizing path with
  | nil => exact Or.inr (Or.inr (Or.inl h))
  | cons t ts ih =>
    rcases ih (attachList path t) h with h | h | h | ⟨s, hs, h⟩
    · exact Or.inl h
    · exact Or.inr (Or.inl h)
    · rcases mem_attachList c path t h with h | ⟨p, hp, e, he, h⟩
      · exact Or.inl h
      rcases mem_attach c p e h with h | h | h
      · exact Or.inr (Or.inr (Or.inl (mem_entry c path p hp h)))
      · exact Or.inr (Or.inr (Or.inr ⟨t, by simp, mem_entry c t e he h⟩))
      · exact Or.inr (Or.inl h)
    · exact Or.inr (Or.inr (Or.inr ⟨s, by simp [hs], h⟩))

end NestedCss.Path

namespace NestedCss.Scope

open NestedCss.Path Scan

variable {scope : Text}

theorem guard_anchorEntry (hs : ∀ c ∈ scope, c ∉ Watch.heeded) (e : Text) :
    Guard.start.uncut (anchorEntry scope e) = Guard.start.uncut e ∧
      Guard.start.steps (anchorEntry scope e) = Guard.start.steps e := by
  rw [anchorEntry]
  split
  · next r h =>
    obtain rfl := after?_eq scope e r h
    obtain ⟨hu, hw⟩ := Guard.start_unheeded scope hs
    have ha : ('&' :: r : Text) = ['&'] ++ r := rfl
    have hn : '&' ∉ Watch.heeded := by decide
    obtain ⟨hua, hwa⟩ := Guard.start_unheeded ['&'] (by simpa using hn)
    rw [ha, Guard.uncut_append, Guard.uncut_append, Guard.steps_append, Guard.steps_append, hu, hw,
      hua, hwa]
    exact ⟨rfl, rfl⟩
  · exact ⟨rfl, rfl⟩

/-- A list is cut where it was before it was anchored. -/
theorem entries_anchorList (hs : ∀ c ∈ scope, c ∉ Watch.heeded) (t : Text) :
    entries (anchorList scope t) = (entries t).map (anchorEntry scope) :=
  Guard.cut_pieces _ _ (Guard.pieces_map _ _ (guard_anchorEntry hs) (Guard.pieces_cut _ t))

theorem entries_scope (hs : ∀ c ∈ scope, c ∉ Watch.heeded) : entries scope = [scope] :=
  Guard.cut_uncut _ _ (Guard.start_unheeded scope hs).1

/-! ## Anchored copies -/

open Containment

theorem mem_anchor (stack : List Text) (t : Text) (c : Char) (h : c ∈ anchor scope stack t) :
    c = ',' ∨ c = '&' ∨ c ∈ t := by
  rw [anchor] at h
  split at h
  · exact Or.inr (Or.inr h)
  · rcases mem_joined c _ h with hc | ⟨e, he, hc⟩
    · exact Or.inl hc
    · obtain ⟨a, ha, rfl⟩ := List.mem_map.mp he
      rw [anchorEntry] at hc
      split at hc
      · next r hr =>
        rcases List.mem_cons.mp hc with hc | hc
        · exact Or.inr (Or.inl hc)
        · refine Or.inr (Or.inr (mem_entry c t a ha ?_))
          rw [after?_eq scope a r hr]
          exact List.mem_append_right scope hc
      · exact Or.inr (Or.inr (mem_entry c t a ha hc))

/-! ## Ends and the scope itself -/

/-- Whether the scope leads each entry of a list, and no blank ends one. -/
def Scoped (scope t : Text) : Prop :=
  ∀ e ∈ entries t, (after? scope e).isSome = true ∧ Text.trim e = e

instance (scope t : Text) : Decidable (Scoped scope t) :=
  inferInstanceAs (Decidable (∀ e ∈ entries t, _))

/-- Where the scope leads no entry there is nothing to anchor. -/
theorem anchorList_eq_self (t : Text) (h : ∀ e ∈ entries t, after? scope e = none) :
    anchorList scope t = t := by
  have hm : (entries t).map (anchorEntry scope) = entries t := by
    refine (List.map_congr_left fun e he => ?_).trans (List.map_id _)
    rw [anchorEntry, h e he]
    rfl
  rw [anchorList, hm, entries, joined_cut]

theorem kind_of_head (t : Text) (c : Char) (hc : c ≠ '@') (h : t.head? = some c) :
    Prelude.kind t = .selector := by
  obtain ⟨r, rfl⟩ := List.head?_eq_some_iff.mp h
  have hh : Prelude.Header.of? (c :: r) = none := by
    unfold Prelude.Header.of?
    split
    · next he => exact absurd (List.cons.inj he).1 hc
    · rfl
  have hi : Prelude.isCondition (c :: r) = false := by
    unfold Prelude.isCondition
    split
    · next he => exact absurd (List.cons.inj he).1 hc
    · rfl
  simp [Prelude.kind, hh, hi]

end NestedCss.Scope
