import NestedCss.Proofs.Namespaces

/-!
# Blocks of a sheet

A sheet has one block for each group, and a group is told from all others by the keys of its rules
as well as by its header in the sheet: naming keyframes after the scope neither joins two groups
nor parts one, since a header under its new name is cut where it was cut before.
-/

set_option autoImplicit false

namespace NestedCss

namespace Grouping

/-! ## Lists in blocks -/

variable {α β γ : Type}

/-- Whether some blocks hold the entries of a list, each once and in their order, with one block for
each value of `f`, in the order in which the first entries of the blocks stand in the list. -/
structure Grouped (f : α → β) (l : List α) (blocks : List (List α)) : Prop where
  perm : blocks.flatten.Perm l
  ordered : ∀ b ∈ blocks, b.Sublist l
  together : ∀ b ∈ blocks, b ≠ [] ∧ ∀ x ∈ b, ∀ y ∈ b, f x = f y
  apart : blocks.Pairwise fun b c => ∀ x ∈ b, ∀ y ∈ c, f x ≠ f y
  leading : (blocks.filterMap List.head?).Sublist l

/-- Two entries share a block just when `f` has the same value at both. -/
theorem Grouped.share_iff {f : α → β} {l : List α} {blocks : List (List α)}
    (h : Grouped f l blocks) (x y : α) (hx : x ∈ l) (hy : y ∈ l) :
    (∃ b ∈ blocks, x ∈ b ∧ y ∈ b) ↔ f x = f y := by
  constructor
  · rintro ⟨b, hb, hxb, hyb⟩
    exact (h.together b hb).2 x hxb y hyb
  · intro he
    obtain ⟨b, hb, hxb⟩ := List.mem_flatten.mp (h.perm.mem_iff.mpr hx)
    obtain ⟨c, hc, hyc⟩ := List.mem_flatten.mp (h.perm.mem_iff.mpr hy)
    have hbc : b = c := by
      by_contra hne
      have : Std.Symm fun b c : List α => ∀ x ∈ b, ∀ y ∈ c, f x ≠ f y :=
        ⟨fun b c hr x hx y hy => (hr y hy x hx).symm⟩
      exact h.apart.forall hb hc hne x hxb y hyc he
    exact ⟨b, hb, hxb, hbc ▸ hyc⟩

/-- Values that tell the same entries apart make the same blocks. -/
theorem Grouped.congr {f : α → β} {g : α → γ} {l : List α} {blocks : List (List α)}
    (h : Grouped f l blocks) (hfg : ∀ x ∈ l, ∀ y ∈ l, (f x = f y ↔ g x = g y)) :
    Grouped g l blocks where
  perm := h.perm
  ordered := h.ordered
  together b hb :=
    ⟨(h.together b hb).1, fun x hx y hy => (hfg x ((h.ordered b hb).mem hx) y
      ((h.ordered b hb).mem hy)).mp ((h.together b hb).2 x hx y hy)⟩
  apart := by
    refine h.apart.imp_of_mem fun hb hc hr x hx y hy he => hr x hx y hy ?_
    exact (hfg x ((h.ordered _ hb).mem hx) y ((h.ordered _ hc).mem hy)).mpr he
  leading := h.leading

variable [BEq β] [LawfulBEq β] (f : α → β)

/-- The entries of a list by the values of `f`, as these first come. -/
def blocks (l : List α) : List (List α) :=
  (l.map f).eraseDups.map fun b => l.filter (f · == b)

theorem blocks_cons (a : α) (l : List α) : blocks f (a :: l) =
    (a :: l.filter (f · == f a)) :: blocks f (l.filter fun x => !f x == f a) := by
  have hm : (l.map f).filter (fun b => !b == f a) = (l.filter fun x => !f x == f a).map f := by
    rw [List.filter_map]
    rfl
  rw [blocks, List.map_cons, List.eraseDups_cons, List.map_cons, hm, blocks]
  congr 1
  · simp
  · refine List.map_congr_left fun b hb => ?_
    obtain ⟨x, hx, rfl⟩ := List.mem_map.mp (List.mem_eraseDups.mp hb)
    have hne : f x ≠ f a := by simpa using (List.mem_filter.mp hx).2
    rw [List.filter_cons_of_neg (by simpa using hne.symm), List.filter_filter]
    refine List.filter_congr fun y _ => ?_
    by_cases hy : f y = f x
    · simp [hy, hne]
    · simp [hy]

/-- The first entries of the blocks stand in the order of the blocks. -/
theorem leading_blocks : ∀ l : List α, ((blocks f l).filterMap List.head?).Sublist l
  | [] => List.Sublist.slnil
  | a :: l => by
    rw [blocks_cons, List.filterMap_cons]
    exact ((leading_blocks (l.filter fun x => !f x == f a)).trans List.filter_sublist).cons_cons a
termination_by l => l.length
decreasing_by exact Repeats.length_filter_lt _ a l

theorem perm_blocks (l : List α) : (blocks f l).flatten.Perm l := by
  classical
  have h := Filing.perm_flatMap_filter f (l.map f).eraseDups l (Repeats.nodup_eraseDups _)
    fun a ha => List.mem_eraseDups.mpr (List.mem_map_of_mem ha)
  have hb : ∀ b, l.filter (f · == b) = l.filter fun a => decide (f a = b) := fun b =>
    List.filter_congr fun a _ => Bool.eq_iff_iff.mpr (by simp)
  simpa only [blocks, List.flatMap_def, hb] using h

theorem grouped_blocks (l : List α) : Grouped f l (blocks f l) where
  perm := perm_blocks f l
  ordered b hb := by
    obtain ⟨v, -, rfl⟩ := List.mem_map.mp hb
    exact List.filter_sublist
  together b hb := by
    obtain ⟨v, hv, rfl⟩ := List.mem_map.mp hb
    obtain ⟨a, ha, rfl⟩ := List.mem_map.mp (List.mem_eraseDups.mp hv)
    have hval : ∀ x ∈ l.filter (f · == f a), f x = f a := fun x hx => by
      simpa using (List.mem_filter.mp hx).2
    refine ⟨List.ne_nil_of_mem (List.mem_filter.mpr ⟨ha, by simp⟩), fun x hx y hy => ?_⟩
    rw [hval x hx, hval y hy]
  apart := by
    refine List.pairwise_map.mpr ((Repeats.nodup_eraseDups _).imp fun hne x hx y hy he => hne ?_)
    rw [← beq_iff_eq.mp (List.mem_filter.mp hx).2, ← beq_iff_eq.mp (List.mem_filter.mp hy).2, he]
  leading := leading_blocks f l

end Grouping

namespace Animation

open Prelude

/-! ## Headers under new names -/

/-- Where names go to different names, headers go to different headers. -/
theorem renameGroup_injective (f : Text → Text) (hi : Function.Injective f)
    (hf : ∀ n, n ≠ [] → (∀ c ∈ n, endsName c = false) → f n ≠ [] ∧ ∀ c ∈ f n, endsName c = false) :
    Function.Injective (renameGroup f) := by
  intro s t hst
  have hh := congrArg Header.of? hst
  rw [of?_renameGroup f s hf, of?_renameGroup f t hf] at hh
  cases hs : Header.of? s with
  | none =>
    rw [hs, Option.map_none, eq_comm, Option.map_eq_none_iff] at hh
    rwa [renameGroup, renameGroup, hs, hh] at hst
  | some a =>
    rw [hs, Option.map_some, eq_comm, Option.map_eq_some_iff] at hh
    obtain ⟨b, hb, he⟩ := hh
    obtain ⟨hl, hn, ht⟩ := Header.mk.inj he
    have hab : a = b := by
      cases a
      cases b
      simp_all [hi.eq_iff]
    rw [← Header.text_of? s a hs, ← Header.text_of? t b hb, hab]

/-- What a rule that is filled has for its group when keyframes are renamed. -/
theorem group_rename (f : Text → Text) (b : Book) (hb : ∀ e ∈ b, e.2.group = e.1.group)
    (e : Key × Rule) (he : e ∈ rename f b) (hl : e.2.lines ≠ []) :
    e.2.group = renameGroup f e.1.group := by
  by_cases hn : names b.filled = []
  · rw [rename_of_names_nil f b hn] at he
    have hm : e.2 ∈ b.filled :=
      List.mem_filter.mpr ⟨List.mem_map_of_mem he, by simpa using hl⟩
    have hno : Header.of? e.1.group = none := by
      rw [← hb e he, ← Option.map_eq_none_iff (f := Header.name), Option.eq_none_iff_forall_ne_some]
      intro n hnm
      have : n ∈ names b.filled := (mem_names _ n).mpr ⟨e.2, hm, hnm⟩
      rw [hn] at this
      exact List.not_mem_nil this
    rw [hb e he, renameGroup, hno]
  · rw [rename_of_names f b hn] at he
    obtain ⟨⟨k, r⟩, hr, rfl⟩ := List.mem_map.mp he
    have hrl : r.lines.isEmpty = false := by
      by_contra hne
      simp_all
    simp only [hrl, Bool.false_eq_true, if_false]
    exact congrArg (renameGroup f) (hb (k, r) hr)

end Animation

namespace Sheet

open Grouping

/-- The blocks of some rules, each with its group. -/
def headed (es : Book) : List (Text × Book) :=
  (groups es.rules).map fun g => (g, es.filter (·.2.group == g))

theorem blocks_headed (es : Book) :
    (headed es).map Prod.snd = blocks (fun e : Key × Rule => e.2.group) es := by
  rw [headed, List.map_map, blocks, groups, Book.rules, List.map_map]
  rfl

theorem groups_headed (es : Book) : (headed es).map Prod.fst = groups es.rules := by
  rw [headed, List.map_map]
  exact List.map_id _

theorem rendered_headed (indent : Text) (es : Book) : rendered indent es.rules =
    Text.join ['\n'] ((headed es).map fun b => block indent b.1 b.2.rules) := by
  rw [rendered, headed, List.map_map]
  congr 1
  refine List.map_congr_left fun g _ => ?_
  rw [members, Book.rules, List.filter_map]
  rfl

end Sheet

namespace Unnesting

open Animation Containment Filing Grouping Scan

variable {scope : Text}

theorem group_ledger (ts : List Statement) (e : Key × Rule) (he : e ∈ ledger scope ts) :
    e.2.group = e.1.group := by
  obtain ⟨k, -, rfl⟩ := List.mem_map.mp he
  rfl

/-- The group of a filled rule is that of its key, its keyframes named after the scope. -/
theorem group_run (source : Text) (e : Key × Rule)
    (he : e ∈ (start source scope Settings.standard).run.book.filledEntries) :
    e.2.group = renameGroup (label scope ++ ·) e.1.group := by
  obtain ⟨hm, hl⟩ := List.mem_filter.mp he
  rw [(run_standard source scope).2] at hm
  exact group_rename _ _ (group_ledger _) e hm (by simpa using hl)

/-- By default css has one block for each group of the rules that are filled, the groups in the
order in which they first come and each with all its rules in their order. That keyframes are named
after the scope takes no part in it: rules share a block just when the groups of their keys are the
same. -/
theorem css_in_blocks (h : IsClass scope) (source : Text) :
    let u := (start source scope Settings.standard).run
    let blocks := Sheet.headed u.book.filledEntries
    u.css = Text.join ['\n'] (blocks.map fun b => Sheet.block [' ', ' '] b.1 b.2.rules) ∧
      u.book.filledEntries.keys.Nodup ∧
      Grouped (fun e => e.1.group) u.book.filledEntries (blocks.map Prod.snd) ∧
      (blocks.map Prod.fst).Nodup ∧
      (∀ b ∈ blocks, ∀ e ∈ b.2, b.1 = renameGroup (label scope ++ ·) e.1.group) ∧
      ∀ e₁ ∈ u.book.filledEntries, ∀ e₂ ∈ u.book.filledEntries,
        (∃ b ∈ blocks, e₁ ∈ b.2 ∧ e₂ ∈ b.2) ↔ e₁.1.group = e₂.1.group := by
  intro u blocks
  have hg : Grouped (fun e : Key × Rule => e.1.group) u.book.filledEntries
      (blocks.map Prod.snd) := by
    have hi := renameGroup_injective (label scope ++ ·) (fun s t => List.append_cancel_left)
      (Namespaces.name_label h)
    rw [Sheet.blocks_headed]
    refine (grouped_blocks _ _).congr fun x hx y hy => ?_
    rw [group_run source x hx, group_run source y hy, hi.eq_iff]
  have hk : u.book.filledEntries.keys.Nodup := by
    have hb : u.book.keys.Nodup := by
      rw [(run_standard source scope).2, keys_rename, keys_ledger]
      exact nodup_reached scope _
    exact hb.sublist (List.filter_sublist.map _)
  refine ⟨?_, hk, hg, ?_, ?_, fun e₁ h₁ e₂ h₂ => ?_⟩
  · rw [← Sheet.rendered_headed, Book.rules_filledEntries]
    exact congrArg (Sheet.rendered · _) (congrArg Settings.indent (run_standard source scope).1)
  · rw [Sheet.groups_headed]
    exact Sheet.nodup_groups _
  · intro b hb e he
    obtain ⟨g, -, rfl⟩ := List.mem_map.mp hb
    obtain ⟨hm, hge⟩ := List.mem_filter.mp he
    rw [← group_run source e hm]
    exact (beq_iff_eq.mp hge).symm
  · rw [← hg.share_iff e₁ e₂ h₁ h₂]
    simp only [List.mem_map, exists_exists_and_eq_and]

theorem css_in_blocks_of_fades :
    let source := ("@media print\x7b.a\x7btop:0;\x7d\x7d.b\x7btop:1px;\x7d" ++
      "@keyframes fade\x7bfrom\x7btop:2px;\x7d\x7d.c\x7btop:3px;\x7d" ++
      "@media print\x7b.d\x7btop:4px;\x7d\x7d").toList
    let u := (start source ".s".toList Settings.standard).run
    let blocks := Sheet.headed u.book.filledEntries
    u.css = Text.join ['\n'] (blocks.map fun b => Sheet.block [' ', ' '] b.1 b.2.rules) ∧
      blocks.map (fun b => (b.1, b.2.keys)) =
        [("@media print".toList, [⟨"@media print".toList, ".s .a".toList⟩,
            ⟨"@media print".toList, ".s .d".toList⟩]),
          ([], [⟨[], ".s .b".toList⟩, ⟨[], ".s .c".toList⟩]),
          ("@keyframes s_fade".toList, [⟨"@keyframes fade".toList, "from".toList⟩])] := by
  intro source
  exact ⟨(css_in_blocks ⟨'s', [], rfl, by decide⟩ source).1, by decide +kernel⟩

end Unnesting

end NestedCss
