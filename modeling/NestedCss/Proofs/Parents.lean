import NestedCss.Proofs.Anchors
import NestedCss.Proofs.Replacing
import NestedCss.Proofs.Sessions

/-!
# Parents

Each `&` of a selector gives way to the path of its parent. However a list is cut, a path without
`&` stays without, since what is attached to it brings none along. And however a path is cut, a
class stays whole in one of the pieces and is passed on to whatever is attached to that piece. So
the selector of each rule outside keyframes holds no `&` and holds the scope.
-/

set_option autoImplicit false

namespace NestedCss.Path
open Text

theorem infix_entry (t e : Text) (h : e ∈ entries t) : e <:+: t := by
  have hi := infix_join [','] e (entries t) h
  rwa [← joined, entries, joined_cut] at hi

/-! ## No parent is left -/

theorem no_parent_putParent (path segment : Text) (hp : '&' ∉ path) :
    '&' ∉ putParent path segment := by
  intro h
  obtain ⟨c, -, hc⟩ := List.mem_flatMap.mp h
  split_ifs at hc with he
  · exact hp hc
  · exact he (by simpa using (List.mem_singleton.mp hc).symm)

theorem no_parent_attach (path segment : Text) (hp : '&' ∉ path) : '&' ∉ attach path segment := by
  intro h
  rw [attach] at h
  split_ifs at h with hs
  · exact no_parent_putParent path segment hp (mem_trim '&' _ h)
  all_goals
    have hs : '&' ∉ segment := by simpa using hs
    simp [hp, hs] at h

theorem no_parent_foldl (path : Text) (ts : List Text) (hp : '&' ∉ path) :
    '&' ∉ ts.foldl attachList path := by
  induction ts generalizing path with
  | nil => exact hp
  | cons t ts ih =>
    refine ih _ fun h => ?_
    rcases mem_attachList '&' path t h with h | ⟨p, hm, e, -, h⟩
    · exact absurd h (by decide)
    · exact no_parent_attach p e (fun hc => hp (mem_entry '&' path p hm hc)) h

/-! ## The scope is passed on -/

/-- A text without a comma is not cut by joining others. -/
theorem exists_infix_of_joined (s : Text) (hn : s ≠ []) (hc : ',' ∉ s) (ts : List Text)
    (h : s <:+: joined ts) : ∃ t ∈ ts, s <:+: t := by
  induction ts with
  | nil => exact absurd (List.infix_nil.mp h) hn
  | cons t ts ih =>
    cases ts with
    | nil => exact ⟨t, by simp, by simpa [joined, Text.join] using h⟩
    | cons u ts =>
      rw [Watch.joined_cons] at h
      rcases infix_apart s t _ ',' hn hc h with h | h
      · exact ⟨t, by simp, h⟩
      · obtain ⟨v, hv, h⟩ := ih h
        exact ⟨v, List.mem_cons_of_mem t hv, h⟩

/-- What stands in a path stands in one of its entries and from there in all that is attached to
that entry. -/
theorem infix_attachList (s path segment : Text) (hb : ∀ c ∈ s, isBlank c = false) (hn : s ≠ [])
    (hc : ',' ∉ s) (h : s <:+: path) : s <:+: attachList path segment := by
  rw [← joined_cut Guard.start path] at h
  obtain ⟨p, hp, hs⟩ := exists_infix_of_joined s hn hc _ h
  obtain ⟨e, he⟩ := List.exists_mem_of_ne_nil _ (cut_ne_nil Guard.start segment)
  have hm : attach p e ∈ pairings (entries path) (entries segment) :=
    List.mem_flatMap.mpr ⟨p, hp, List.mem_map_of_mem he⟩
  exact (infix_attach s p e hb hn hs).trans (infix_join [','] _ _ hm)

theorem infix_foldl (s path : Text) (ts : List Text) (hb : ∀ c ∈ s, isBlank c = false)
    (hn : s ≠ []) (hc : ',' ∉ s) (h : s <:+: path) : s <:+: ts.foldl attachList path := by
  induction ts generalizing path with
  | nil => exact h
  | cons t ts ih => exact ih _ (infix_attachList s path t hb hn hc h)

end NestedCss.Path

namespace NestedCss.Containment
open NestedCss.Scan NestedCss.Filing NestedCss.Path

variable {scope : Text}

/-- A class holds no mark at all but its dot. -/
theorem not_mem_class (h : IsClass scope) (c : Char) (hd : c ≠ '.') (hw : Text.isWord c = false) :
    c ∉ scope := by
  obtain ⟨a, w, rfl, hs⟩ := h
  intro hm
  rcases List.mem_cons.mp hm with hm | hm
  · exact hd hm
  · exact Bool.noConfusion ((hs c hm).symm.trans hw)

theorem no_parent_selector (h : IsClass scope) (ps : List Text) :
    '&' ∉ compose (ofKind .selector (pathStack scope ps)) := by
  rw [selectors_pathStack h]
  exact no_parent_foldl scope _ (not_mem_class h '&' (by decide) (by decide))

theorem infix_selector (h : IsClass scope) (ps : List Text) :
    scope <:+: compose (ofKind .selector (pathStack scope ps)) := by
  rw [selectors_pathStack h]
  exact infix_foldl scope scope _ (blank_class h) (ne_nil_class h)
    (not_mem_class h ',' (by decide) (by decide)) (List.infix_refl scope)

/-- After a run every key is that of some place in the source. -/
theorem exists_path_of_key (u : Unnesting) (k : Key) (h : k ∈ u.run.book.keys) :
    ∃ ps, k = pathKey u.scope ps := by
  have hb : u.gather.book = ledger u.scope (readSource u.source).statements :=
    (filed_run u _).book_eq
  have hr : u.run.book.keys = u.gather.book.keys := Unnesting.keys_renamed u.gather
  rw [hr, hb, keys_ledger, reached, List.mem_eraseDups] at h
  obtain ⟨before, -, rfl⟩ := List.mem_map.mp h
  exact ⟨openPreludes before, rfl⟩

/-- Whatever the source holds, well formed or not, after a run no `&` is left in the selector of a
rule outside keyframes, and the scope stands in it. -/
theorem every_parent_resolved (u : Unnesting) (h : IsClass u.scope) :
    ∀ e ∈ u.run.book, Prelude.kind e.1.group ≠ .keyframes →
      '&' ∉ e.2.selector ∧ u.scope <:+: e.2.selector := by
  intro e he hk
  have hs : Unnesting.Standing u.run := Unnesting.standing_renamed (Unnesting.standing_gather u)
  obtain ⟨ps, hp⟩ := exists_path_of_key u e.1 (List.mem_map_of_mem he)
  rw [hp] at hk
  have hsel : e.2.selector = compose (ofKind .selector (pathStack u.scope ps)) := by
    rw [hs.keyed.selector_eq e he, hp, selector_eq h ps hk, selectors_pathStack h]
    rfl
  rw [hsel]
  exact ⟨no_parent_selector h ps, infix_selector h ps⟩

/-- A source that ends within blocks, a bracket in it never closed, where `&` stands in brackets of
either kind. -/
def brokenOff : Unnesting :=
  Unnesting.start "&,:not(.a,&\x7b@media print\x7b[x=&] + &,b\x7btop:0;\x7d".toList ".s".toList
    Settings.standard

def brokenOffKey : Key :=
  ⟨"@media print".toList, "[x=.s]+.s,.s b,[x=:not(.a,.s]+:not(.a,.s,:not(.a,.s b".toList⟩

def brokenOffRule : Rule :=
  ⟨brokenOffKey.group, brokenOffKey.selector, [⟨"top:0;".toList, 1⟩]⟩

theorem every_parent_resolved_of_brokenOff :
    IsClass brokenOff.scope ∧ (brokenOffKey, brokenOffRule) ∈ brokenOff.run.book ∧
      Prelude.kind brokenOffKey.group ≠ .keyframes ∧
      '&' ∉ brokenOffRule.selector ∧ brokenOff.scope <:+: brokenOffRule.selector := by
  have hc : IsClass brokenOff.scope :=
    ⟨'s', [], rfl, by simp only [List.forall_mem_singleton]; decide⟩
  have he : (brokenOffKey, brokenOffRule) ∈ brokenOff.run.book := by decide +kernel
  have hk : Prelude.kind brokenOffKey.group ≠ .keyframes := by decide +kernel
  exact ⟨hc, he, hk, every_parent_resolved brokenOff hc _ he hk⟩

end NestedCss.Containment
