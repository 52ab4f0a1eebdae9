import NestedCss.Proofs.MergedCopies
import NestedCss.Proofs.Parents
import NestedCss.Proofs.Precedence
import NestedCss.Proofs.Templates

/-!
# Leading scopes

A list that is entered above the scope and conditions alone is anchored, and is then put under the
scope entry by entry: an entry that the scope leads keeps its place and gives its other `&` to the
scope, and any other entry is attached to the scope. Anchoring makes no prelude of another kind,
since the kind of a prelude is told before its first comma.
-/

set_option autoImplicit false

namespace NestedCss

namespace Prelude

/-! ## The kind before a comma -/

/-- The at-keyword of keyframes is made of name characters. -/
theorem Header.Sound.keyword_name {h : Header} {keyword blanks : Text}
    (hh : h.Sound keyword blanks) : ∀ c ∈ keyword, Text.isName c = true := by
  have hword : ∀ t, afterWord "keyframes".toList t = some [] → ∀ c ∈ t, Text.isName c = true := by
    intro t ht c hc
    have hs : ∀ w ∈ "keyframes".toList, isSmall w = true := List.all_eq_true.mp (by decide)
    obtain ⟨p, hp, hl, -⟩ := afterWord_append _ t [] ht
    obtain rfl : t = p := by rw [hp, List.append_nil]
    refine Text.isName_of_isWord c (Condition.isWord_of_afterWord _ t [] hl hs ?_ c hc)
    rw [List.append_nil, ht]
    rfl
  have hd : Text.isName '-' = true := by decide
  have hk := hh.keyword_ends []
  rw [List.append_nil] at hk
  revert hk
  fun_cases afterVendor isLetter keyword with
  | case1 r a ls rest hrest hls =>
    intro hk c hc
    have hr : r = (a :: ls) ++ '-' :: rest := by
      rw [← hls, ← hrest, List.takeWhile_append_dropWhile]
    have hl : ∀ c ∈ a :: ls, Text.isName c = true := by
      rw [← hls]
      exact fun c hc =>
        Text.isName_of_isWord c (Condition.isWord_of_isLetter c (List.mem_takeWhile_imp hc))
    rcases List.mem_cons.mp hc with rfl | hc
    · exact hd
    rcases List.mem_append.mp (hr ▸ hc) with hc | hc
    · exact hl c hc
    rcases List.mem_cons.mp hc with rfl | hc
    · exact hd
    · exact hword rest hk c hc
  | case2 r => exact fun hk => hword _ hk
  | case3 => exact fun hk => hword _ hk

theorem Header.Sound.comma_not_mem {h : Header} {keyword blanks : Text}
    (hh : h.Sound keyword blanks) : ',' ∉ h.lead := by
  rw [hh.lead_eq]
  intro hc
  rcases List.mem_append.mp hc with hc | hc
  · rcases List.mem_cons.mp hc with hc | hc
    · exact absurd hc (by decide)
    · exact absurd (hh.keyword_name ',' hc) (by decide)
  · exact absurd (hh.blank ',' hc) (by decide)

/-- A front without commas stands before the first comma. -/
theorem eq_front_of_comma (front back u r : Text) (hf : ',' ∉ front)
    (h : front ++ back = u ++ ',' :: r) : ∃ v, u = front ++ v ∧ back = v ++ ',' :: r := by
  rcases List.append_eq_append_iff.mp h with ⟨v, hu, hb⟩ | ⟨v, hfv, hb⟩
  · exact ⟨v, hu, hb⟩
  · cases v with
    | nil => exact ⟨[], by simpa using hfv.symm, by simpa using hb.symm⟩
    | cons c v =>
      obtain ⟨rfl, -⟩ := List.cons.inj hb
      exact absurd (hfv ▸ by simp) hf

/-- Whether a text is a keyframes header is told before its first comma. -/
theorem keyframes_comma (u r s : Text) (h : (Header.of? (u ++ ',' :: r)).isSome = true) :
    (Header.of? (u ++ ',' :: s)).isSome = true := by
  obtain ⟨hd, ht⟩ := Option.isSome_iff_exists.mp h
  obtain ⟨keyword, blanks, hh⟩ := Header.sound_of? _ hd ht
  have htext : hd.lead ++ (hd.name ++ hd.tail) = u ++ ',' :: r := by
    rw [← List.append_assoc]
    exact Header.text_of? _ hd ht
  obtain ⟨v, rfl, hb⟩ := eq_front_of_comma _ _ u r hh.comma_not_mem htext
  obtain ⟨a, name, hn⟩ := List.exists_cons_of_ne_nil hh.name_ne_nil
  have ha : endsName a = false := hh.name_goes_on a (by simp [hn])
  rw [hn] at hb
  obtain ⟨w, hw⟩ : ∃ w, v ++ ',' :: s = a :: w := by
    cases v with
    | nil => exact ⟨s, by rw [(List.cons.inj hb).1]; rfl⟩
    | cons b v => exact ⟨v ++ ',' :: s, by rw [(List.cons.inj hb).1]; rfl⟩
  rw [List.append_assoc, hw, hh.of?_lead a w ha]
  rfl

theorem condition_comma (u r s : Text) (h : isCondition (u ++ ',' :: r) = true) :
    isCondition (u ++ ',' :: s) = true := by
  obtain ⟨word, hword, p, after, ht, hs, hl, ha⟩ := (Condition.isCondition_iff _).mp h
  have hsmall : ∀ w ∈ word, isSmall w = true := by
    rcases List.mem_cons.mp hword with rfl | hword
    · exact List.all_eq_true.mp (by decide)
    · rw [List.mem_singleton.mp hword]
      exact List.all_eq_true.mp (by decide)
  have hp := Condition.isWord_of_afterWord word p [] hl hsmall (by rw [hs]; rfl)
  have hf : ',' ∉ '@' :: p := by
    intro hc
    rcases List.mem_cons.mp hc with hc | hc
    · exact absurd hc (by decide)
    · exact absurd (hp ',' hc) (by decide)
  obtain ⟨v, rfl, rfl⟩ := eq_front_of_comma ('@' :: p) after u r hf ht.symm
  refine (Condition.isCondition_iff _).mpr ⟨word, hword, p, v ++ ',' :: s, ?_, hs, hl, ?_⟩
  · simp
  · cases v with
    | nil => rfl
    | cons c v => exact ha

/-- What stands behind a comma takes no part in the kind. -/
theorem kind_comma (u r s : Text) : kind (u ++ ',' :: r) = kind (u ++ ',' :: s) := by
  have hk : (Header.of? (u ++ ',' :: r)).isSome = (Header.of? (u ++ ',' :: s)).isSome :=
    Bool.eq_iff_iff.mpr ⟨keyframes_comma u r s, keyframes_comma u s r⟩
  have hc : isCondition (u ++ ',' :: r) = isCondition (u ++ ',' :: s) :=
    Bool.eq_iff_iff.mpr ⟨condition_comma u r s, condition_comma u s r⟩
  rw [kind, kind, hk, hc]

end Prelude

namespace Scope

open NestedCss.Path Containment

variable {scope : Text}

/-- Whether an entry begins with the scope and the name goes no further. -/
def LedBy (scope entry : Text) : Prop :=
  ∃ r, entry = scope ++ r ∧ ∀ c ∈ r.head?, Text.isName c = false

theorem ledBy_iff (scope entry : Text) : LedBy scope entry ↔ (after? scope entry).isSome = true := by
  rw [LedBy, after?]
  constructor
  · rintro ⟨r, rfl, hr⟩
    have hn : r.head?.any Text.isName = false := by
      rw [Option.any_eq_false]
      simpa using hr
    have hp : scope.isPrefixOf (scope ++ r) = true :=
      List.isPrefixOf_iff_prefix.mpr (List.prefix_append scope r)
    simp [hp, hn]
  · intro h
    split at h
    · next hc =>
      rw [Bool.and_eq_true, List.isPrefixOf_iff_prefix] at hc
      obtain ⟨⟨r, rfl⟩, hn⟩ := hc
      rw [List.drop_left, Bool.not_eq_true', Option.any_eq_false] at hn
      exact ⟨r, rfl, by simpa using hn⟩
    · simp at h

instance (scope entry : Text) : Decidable (LedBy scope entry) :=
  decidable_of_iff _ (ledBy_iff scope entry).symm

/-- Anchoring leaves a selector one. -/
theorem kind_anchorList (t : Text) (ht : Prelude.kind t = .selector) :
    Prelude.kind (anchorList scope t) = .selector := by
  obtain ⟨e, es, he⟩ := List.exists_cons_of_ne_nil (cut_ne_nil Guard.start t)
  have hj : joined (e :: es) = t := by
    rw [← he]
    exact joined_cut _ t
  rw [anchorList, entries, he, List.map_cons, anchorEntry]
  cases ha : after? scope e with
  | some r =>
    refine kind_of_head _ '&' (by decide) ?_
    cases es with
    | nil => simp [joined, Text.join]
    | cons f es => rw [List.map_cons, Watch.joined_cons]; rfl
  | none =>
    cases es with
    | nil => rwa [List.map_nil, hj]
    | cons f es =>
      rw [Watch.joined_cons] at hj
      rw [List.map_cons, Watch.joined_cons, Prelude.kind_comma e _ (joined (f :: es)), hj]
      exact ht

theorem kind_anchor (stack : List Text) (t : Text) :
    Prelude.kind (anchor scope stack t) = Prelude.kind t := by
  rw [anchor]
  split
  · rfl
  · next hk =>
    have ht : Prelude.kind t = .selector := by
      by_contra hn
      exact hk (by simp [hn])
    rw [ht, kind_anchorList t ht]

/-- On a selector above the lowest text nothing is anchored. -/
theorem anchor_of_selector (stack : List Text) (t : Text)
    (h : ∃ s ∈ stack.tail, Prelude.kind s = .selector) : anchor scope stack t = t := by
  obtain ⟨s, hm, hk⟩ := h
  have ha : stack.tail.any (Prelude.kind · == .selector) = true :=
    List.any_eq_true.mpr ⟨s, hm, by simp [hk]⟩
  rw [anchor, ha]
  rfl

/-- Attached to the scope, an entry that the scope leads keeps its place, and the scope is put for
each `&` behind. -/
theorem attach_anchorEntry_eq (h : IsClass scope) (e : Text) : attach scope (anchorEntry scope e) =
    if LedBy scope e then Text.trim (putParent scope e) else attach scope e := by
  rw [anchorEntry]
  cases ha : after? scope e with
  | none =>
    rw [if_neg]
    rw [ledBy_iff, ha]
    simp
  | some r =>
    have hamp : '&' ∉ scope := not_mem_class h '&' (by decide) (by decide)
    rw [if_pos ((ledBy_iff scope e).mpr (by rw [ha]; rfl)), after?_eq scope e r ha, attach,
      if_pos (by simp), putParent_parent, putParent_append, Scan.putParent_of_not_mem scope scope hamp]

/-- A list that is anchored and put under the scope. -/
theorem attachList_anchor (h : IsClass scope) (t : Text) :
    attachList scope (anchorList scope t) = joined ((entries t).map fun e =>
      if LedBy scope e then Text.trim (putParent scope e) else attach scope e) := by
  have hu := unheeded_class h
  rw [attachList, entries_scope hu, entries_anchorList hu, pairings, List.flatMap_singleton,
    List.map_map]
  congr 1
  exact List.map_congr_left fun e _ => attach_anchorEntry_eq h e

end Scope

namespace Unnesting

open NestedCss.Path Scope Containment

variable {u : Unnesting}

theorem anchored_of_selector (t : Text) (hs : ∃ s ∈ u.stack.tail, Prelude.kind s = .selector) :
    u.anchored t = t := by
  rw [anchored, anchor_of_selector u.stack t hs]
  exact ite_self t

theorem selector_enter (h : IsClass u.scope) (conditions : List Text) (t : Text)
    (hs : u.stack = u.scope :: conditions) (hc : ∀ c ∈ conditions, Prelude.kind c = .condition)
    (ht : Prelude.kind t = .selector) :
    (Key.ofStack (u.enter t).stack).selector = joined ((entries t).map fun e =>
      if LedBy u.scope e then Text.trim (putParent u.scope e) else attach u.scope e) := by
  have ha : u.anchored t = anchorList u.scope t := by
    have hn : (u.scope :: conditions).tail.any (Prelude.kind · == .selector) = false := by
      rw [List.tail_cons, List.any_eq_false]
      intro c hm
      simp [hc c hm]
    rw [anchored, anchor, hs, hn, ht]
    rfl
  have hk := @kind_anchorList u.scope t ht
  have hf : ofKind .selector conditions = [] := by
    refine List.filter_eq_nil_iff.mpr fun c hm => ?_
    simp [hc c hm]
  have hi : innermostKeyframes (u.scope :: conditions ++ [anchorList u.scope t]) = none := by
    refine Filing.innermost_keyframes_of_none _ fun s hm => ?_
    rcases List.mem_append.mp hm with hm | hm
    · rcases List.mem_cons.mp hm with rfl | hm
      · rw [kind_class h]
        decide
      · rw [hc s hm]
        decide
    · rw [List.mem_singleton.mp hm, hk]
      decide
  have ho : ofKind .selector (u.scope :: conditions ++ [anchorList u.scope t]) =
      [u.scope, anchorList u.scope t] := by
    rw [ofKind, List.filter_append, List.filter_cons, kind_class h, List.filter_singleton, hk]
    rw [ofKind] at hf
    rw [hf]
    rfl
  rw [enter, stack_settle, ha, hs, Key.ofStack, hi, ← attachList_anchor h t]
  show compose (ofKind .selector (u.scope :: conditions ++ [anchorList u.scope t])) = _
  rw [ho]
  rfl

/-- In any session, a selector that is entered where only conditions lie on a class is put under
the class entry by entry: where the class leads an entry it stays in its place, with the class for
each `&`, and otherwise the entry is attached to the class. So a list without `&` that the class
leads throughout stands for itself. On any selector above the lowest text nothing is anchored. -/
theorem led_entries_keep_their_place (source scope : Text) (settings : Settings)
    (as : List Action) :
    let u := (start source scope settings).actAll as
    (∀ conditions t, IsClass u.scope → u.stack = u.scope :: conditions →
      (∀ c ∈ conditions, Prelude.kind c = .condition) → Prelude.kind t = .selector →
      ∃ r, (u.enter t).currentRule = some r ∧
        r.selector = joined ((entries t).map fun e =>
          if LedBy u.scope e then Text.trim (putParent u.scope e) else attach u.scope e) ∧
        ((∀ e ∈ entries t, LedBy u.scope e ∧ '&' ∉ e ∧ Text.trim e = e) → r.selector = t)) ∧
    ∀ t, (∃ s ∈ u.stack.tail, Prelude.kind s = .selector) → (u.enter t).stack = u.stack ++ [t] := by
  intro u
  constructor
  · intro conditions t h hs hc ht
    have hst : Standing (u.enter t) :=
      standing_enter (standing_actAll (standing_start source scope settings) as) t
    obtain ⟨r, hr, hcur⟩ := hst.exists_current (by simp [enter, stack_settle])
    have hsel : r.selector = joined ((entries t).map fun e =>
        if LedBy u.scope e then Text.trim (putParent u.scope e) else attach u.scope e) :=
      (hst.keyed.selector_eq _ hr).trans (selector_enter h conditions t hs hc ht)
    refine ⟨r, hcur, hsel, fun hled => ?_⟩
    have hm : (entries t).map (fun e => if LedBy u.scope e then Text.trim (putParent u.scope e)
        else attach u.scope e) = entries t := by
      refine (List.map_congr_left fun e he => ?_).trans (List.map_id _)
      obtain ⟨hl, ha, htrim⟩ := hled e he
      rw [if_pos hl, Scan.putParent_of_not_mem _ e ha, htrim]
      rfl
    rw [hsel, hm, entries, joined_cut]
  · intro t hs
    rw [enter, stack_settle, anchored_of_selector t hs]

theorem led_entries_keep_their_place_of_cards :
    let session (as : List Action) := (start [] ".s".toList Settings.standard).actAll as
    let u := session [.enter ".s".toList, .enter "@media print".toList]
    let v := session [.enter ".s".toList, .enter ".a".toList]
    (∃ r, (u.enter ".s:hover & ,.s-x,.a:is(.s,b)".toList).currentRule = some r ∧
      r.selector = ".s:hover .s,.s .s-x,.s .a:is(.s,b)".toList) ∧
    (∃ r, (u.enter ".s:hover,.s".toList).currentRule = some r ∧
      r.selector = ".s:hover,.s".toList) ∧
    (v.enter ".s b".toList).stack = [".s".toList, ".a".toList, ".s b".toList] := by
  intro session u v
  have hc : IsClass u.scope := ⟨'s', [], rfl, by simp only [List.forall_mem_singleton]; decide⟩
  have hs : u.stack = u.scope :: ["@media print".toList] := by decide +kernel
  have hm : ∀ c ∈ ["@media print".toList], Prelude.kind c = .condition := by decide
  have hu := (led_entries_keep_their_place [] ".s".toList Settings.standard
    [.enter ".s".toList, .enter "@media print".toList]).1 ["@media print".toList]
  have hv := (led_entries_keep_their_place [] ".s".toList Settings.standard
    [.enter ".s".toList, .enter ".a".toList]).2 ".s b".toList
  refine ⟨?_, ?_, hv (by decide +kernel)⟩
  · obtain ⟨r, hr, hsel, -⟩ := hu ".s:hover & ,.s-x,.a:is(.s,b)".toList hc hs hm (by decide)
    exact ⟨r, hr, hsel.trans (by decide +kernel)⟩
  · obtain ⟨r, hr, -, hled⟩ := hu ".s:hover,.s".toList hc hs hm (by decide)
    exact ⟨r, hr, hled (by decide +kernel)⟩

end Unnesting

end NestedCss
