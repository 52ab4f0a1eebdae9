import Mathlib.Data.List.Induction
import Mathlib.Data.List.Nodup

/-!
# Lists without repeats

Erasing repeats keeps each entry where it first stands. It goes through filters and through lists
with nothing in common, and it leaves alone what has no repeats.
-/

set_option autoImplicit false

namespace NestedCss.Repeats

theorem length_filter_lt {α : Type} (p : α → Bool) (a : α) (l : List α) :
    (l.filter p).length < (a :: l).length :=
  Nat.lt_succ_of_le (List.length_filter_le p l)

variable {α : Type} [BEq α] [LawfulBEq α]

theorem nodup_eraseDups : ∀ l : List α, l.eraseDups.Nodup
  | [] => by simp
  | a :: l => by
    rw [List.eraseDups_cons, List.nodup_cons]
    exact ⟨by simp, nodup_eraseDups (l.filter fun b => !b == a)⟩
termination_by l => l.length
decreasing_by exact length_filter_lt _ a l

theorem eraseDups_eq_self (l : List α) (h : l.Nodup) : l.eraseDups = l := by
  induction l with
  | nil => rfl
  | cons a l ih =>
    obtain ⟨ha, hl⟩ := List.nodup_cons.mp h
    have hf : l.filter (fun b => !b == a) = l := by
      refine List.filter_eq_self.mpr fun b hb => ?_
      simpa using ne_of_mem_of_not_mem hb ha
    rw [List.eraseDups_cons, hf, ih hl]

theorem filter_eraseDups (p : α → Bool) : ∀ l : List α,
    (l.filter p).eraseDups = l.eraseDups.filter p
  | [] => rfl
  | a :: l => by
    have hi := filter_eraseDups p (l.filter fun b => !b == a)
    rw [List.eraseDups_cons]
    by_cases ha : p a = true
    · rw [List.filter_cons_of_pos ha, List.filter_cons_of_pos ha, List.eraseDups_cons, ← hi,
        List.filter_filter, List.filter_filter]
      simp only [Bool.and_comm]
    · -- An entry that is filtered out takes with it only its repeats, which are filtered out too.
      rw [List.filter_cons_of_neg ha, List.filter_cons_of_neg ha, ← hi, List.filter_filter]
      congr 1
      refine List.filter_congr fun b _ => ?_
      by_cases hb : b = a
      · simp [hb, ha]
      · simp [beq_eq_false_iff_ne.mpr hb]
termination_by l => l.length
decreasing_by exact length_filter_lt _ a l

/-- Under a map that can be undone on the list the same elements are repeats. -/
theorem eraseDups_map {β : Type} [BEq β] [LawfulBEq β] (f : α → β) (g : β → α) : ∀ l : List α,
    (∀ a ∈ l, g (f a) = a) → (l.map f).eraseDups = l.eraseDups.map f
  | [], _ => rfl
  | a :: l, h => by
    have hf : (l.map f).filter (fun b => !b == f a) = (l.filter fun c => !c == a).map f := by
      rw [List.filter_map]
      congr 1
      refine List.filter_congr fun c hc => ?_
      have he : f c = f a ↔ c = a :=
        ⟨fun he => by rw [← h c (by simp [hc]), he, h a (by simp)], congrArg f⟩
      rw [Function.comp_apply, Bool.eq_iff_iff]
      simp [he]
    have hi := eraseDups_map f g (l.filter fun c => !c == a) fun c hc =>
      h c (List.mem_cons_of_mem a (List.mem_of_mem_filter hc))
    rw [List.map_cons, List.eraseDups_cons, hf, hi, List.eraseDups_cons, List.map_cons]
  termination_by l => l.length
  decreasing_by exact length_filter_lt _ a l

theorem eraseDups_append_of_disjoint (l m : List α) (h : ∀ a ∈ m, a ∉ l) :
    (l ++ m).eraseDups = l.eraseDups ++ m.eraseDups := by
  have hr : m.removeAll l = m := List.filter_eq_self.mpr fun a ha => by simpa using h a ha
  rw [List.eraseDups_append, hr]

theorem eraseDups_eraseDups (l : List α) : l.eraseDups.eraseDups = l.eraseDups :=
  eraseDups_eq_self _ (nodup_eraseDups l)

/-- Lists that keep the same entries may be put for one another. -/
theorem eraseDups_append_congr {l l' m m' : List α} (hl : l.eraseDups = l'.eraseDups)
    (hm : m.eraseDups = m'.eraseDups) : (l ++ m).eraseDups = (l' ++ m').eraseDups := by
  have hp : (fun a => !l.elem a) = fun a => !l'.elem a := by
    funext a
    have ha : a ∈ l ↔ a ∈ l' := by
      rw [← List.mem_eraseDups, hl, List.mem_eraseDups]
    simp [ha]
  rw [List.eraseDups_append, List.eraseDups_append, List.removeAll, List.removeAll,
    filter_eraseDups, filter_eraseDups, hl, hm, hp]

theorem eraseDups_append_of_subset (l m : List α) (h : m ⊆ l) :
    (l ++ m).eraseDups = l.eraseDups := by
  have hr : m.removeAll l = [] := List.filter_eq_nil_iff.mpr fun a ha => by simpa using h ha
  rw [List.eraseDups_append, hr, List.eraseDups_nil, List.append_nil]

/-- Erasing repeats goes through lists that have none and nothing in common. -/
theorem eraseDups_flatMap {β : Type} [BEq β] [LawfulBEq β] (f : α → List β) (l : List α)
    (h : (l.eraseDups.flatMap f).Nodup) : (l.flatMap f).eraseDups = l.eraseDups.flatMap f := by
  induction l using List.reverseRecOn with
  | nil => rfl
  | append_singleton l a ih =>
    rw [List.flatMap_append, List.flatMap_singleton]
    by_cases ha : a ∈ l
    · rw [eraseDups_append_of_subset l [a] (by simpa using ha)] at h ⊢
      rw [eraseDups_append_of_subset _ _ fun b hb => List.mem_flatMap.mpr ⟨a, ha, hb⟩, ih h]
    · have hs : (l ++ [a]).eraseDups = l.eraseDups ++ [a] := by
        rw [eraseDups_append_of_disjoint l [a] (by simpa using ha), List.eraseDups_cons]
        rfl
      rw [hs, List.flatMap_append, List.flatMap_singleton] at h ⊢
      obtain ⟨hl, hf, hd⟩ := List.nodup_append.mp h
      have hn : ∀ b ∈ f a, b ∉ l.flatMap f := by
        intro b hb hm
        obtain ⟨c, hc, hbc⟩ := List.mem_flatMap.mp hm
        exact hd b (List.mem_flatMap.mpr ⟨c, List.mem_eraseDups.mpr hc, hbc⟩) b hb rfl
      rw [eraseDups_append_of_disjoint _ _ hn, ih hl, eraseDups_eq_self _ hf]

/-- Repeats may be erased before a list is mapped, if they are erased behind it as well. -/
theorem eraseDups_filterMap {β : Type} [BEq β] [LawfulBEq β] (f : α → Option β) (l : List α) :
    (l.eraseDups.filterMap f).eraseDups = (l.filterMap f).eraseDups := by
  induction l using List.reverseRecOn with
  | nil => rfl
  | append_singleton l a ih =>
    rw [List.filterMap_append]
    by_cases ha : a ∈ l
    · have hs : [a].filterMap f ⊆ l.filterMap f := fun b hb => by
        obtain ⟨c, hc, hf⟩ := List.mem_filterMap.mp hb
        obtain rfl := List.mem_singleton.mp hc
        exact List.mem_filterMap.mpr ⟨c, ha, hf⟩
      rw [eraseDups_append_of_subset l [a] (by simpa using ha), ih, eraseDups_append_of_subset _ _ hs]
    · rw [eraseDups_append_of_disjoint l [a] (by simpa using ha), List.filterMap_append]
      exact eraseDups_append_congr ih rfl

/-! ## One entry after the other -/

variable {p : α → Bool}

end NestedCss.Repeats
