import Mathlib.Data.List.TakeWhile
import NestedCss.Animation

/-!
# Renamed headers

A keyframes header stays one when it gets another name, as long as the name begins as a name may.
So renaming keyframes makes no group a keyframes header and none anything else.
-/

set_option autoImplicit false

namespace NestedCss.Prelude

theorem afterWord_append (word t after : Text) (h : afterWord word t = some after) :
    ∃ p, t = p ++ after ∧ p.length = word.length ∧ ∀ s, afterWord word (p ++ s) = some s := by
  fun_induction afterWord word t with
  | case1 t =>
    obtain rfl := Option.some.inj h
    exact ⟨[], rfl, rfl, fun s => rfl⟩
  | case2 => simp at h
  | case3 w ws c r hc ih =>
    obtain ⟨p, rfl, hl, hs⟩ := ih h
    exact ⟨c :: p, rfl, by simp [hl], fun s => by simp [afterWord, hc, hs]⟩
  | case4 => simp at h

/-- What follows the at-keyword of keyframes may be anything. -/
theorem afterKeyframes_append (r after : Text)
    (h : afterWord "keyframes".toList (afterVendor isLetter r) = some after) :
    ∃ p, r = p ++ after ∧
      ∀ s, afterWord "keyframes".toList (afterVendor isLetter (p ++ s)) = some s := by
  have hd : isLetter '-' = false := by decide
  revert h
  fun_cases afterVendor isLetter r with
  | case1 r a ls rest hrest hls =>
    intro h
    obtain ⟨p, hp, -, hs⟩ := afterWord_append _ _ _ h
    have hr : r = (a :: ls) ++ '-' :: rest := by
      rw [← hls, ← hrest, List.takeWhile_append_dropWhile]
    have hl : ∀ c ∈ a :: ls, isLetter c = true := by
      rw [← hls]
      exact fun c => List.mem_takeWhile_imp
    refine ⟨'-' :: (a :: ls) ++ '-' :: p, by rw [hr, hp]; simp, fun s => ?_⟩
    have ht : (a :: ls ++ '-' :: (p ++ s)).takeWhile isLetter = a :: ls := by
      rw [List.takeWhile_append_of_pos hl, List.takeWhile_cons, hd]
      simp
    have hw : (a :: ls ++ '-' :: (p ++ s)).dropWhile isLetter = '-' :: (p ++ s) := by
      rw [List.dropWhile_append_of_pos hl, List.dropWhile_cons, hd]
      simp
    have hv : afterVendor isLetter ('-' :: (a :: ls ++ '-' :: (p ++ s))) = p ++ s := by
      simp only [afterVendor, ht, hw]
    have he : '-' :: (a :: ls) ++ '-' :: p ++ s = '-' :: (a :: ls ++ '-' :: (p ++ s)) := by simp
    rw [he, hv]
    exact hs s
  | case2 r =>
    intro h
    simp [afterWord, foldLetter] at h
  | case3 _ hn =>
    intro h
    obtain ⟨p, hp, hl, hs⟩ := afterWord_append _ _ _ h
    refine ⟨p, hp, fun s => ?_⟩
    have hv : afterVendor isLetter (p ++ s) = p ++ s := by
      cases p with
      | nil => simp at hl
      | cons c p =>
        have hc : c ≠ '-' := fun he => hn (p ++ after) (by rw [hp, he]; rfl)
        rw [List.cons_append, afterVendor]
        exact fun _ he => hc (List.cons.inj he).1
    rw [hv]
    exact hs s

/-- A lead of blanks and a name behind it make a header. -/
theorem cut?_blanks (lead blanks rest : Text) (a : Char) (hn : blanks ≠ [])
    (hb : ∀ c ∈ blanks, Text.isBlank c = true) (ha : endsName a = false) :
    Header.cut? lead (blanks ++ a :: rest) = some ⟨lead ++ blanks,
      (a :: rest).takeWhile (!endsName ·), (a :: rest).dropWhile (!endsName ·)⟩ := by
  have hab : Text.isBlank a = false := by
    rw [endsName, Bool.or_eq_false_iff] at ha
    exact ha.1
  have ht : (blanks ++ a :: rest).takeWhile Text.isBlank = blanks := by
    rw [List.takeWhile_append_of_pos hb, List.takeWhile_cons, hab]
    simp
  have hd : (blanks ++ a :: rest).dropWhile Text.isBlank = a :: rest := by
    rw [List.dropWhile_append_of_pos hb, List.dropWhile_cons, hab]
    simp
  simp [Header.cut?, ht, hd, hn, ha]

/-- What a header is made of: the at-keyword and blanks, then a name up to a character that ends
it. Behind the at-keyword there may be anything else. -/
structure Header.Sound (h : Header) (keyword blanks : Text) : Prop where
  lead_eq : h.lead = '@' :: keyword ++ blanks
  keyword_ends (s : Text) :
    afterWord "keyframes".toList (afterVendor isLetter (keyword ++ s)) = some s
  blanks_ne_nil : blanks ≠ []
  blank : ∀ c ∈ blanks, Text.isBlank c = true
  name_ne_nil : h.name ≠ []
  name_goes_on : ∀ c ∈ h.name, endsName c = false
  tail_ends : ∀ c ∈ h.tail.head?, endsName c = true

theorem Header.sound_of? (t : Text) (h : Header) (ht : Header.of? t = some h) :
    ∃ keyword blanks, h.Sound keyword blanks := by
  unfold Header.of? at ht
  split at ht
  · next r =>
    split at ht
    · simp at ht
    · next after hw =>
      obtain ⟨p, hp, hs⟩ := afterKeyframes_append r after hw
      have hl : r.take (r.length - after.length) = p := by
        rw [hp]
        simp
      simp only [Header.cut?, hl] at ht
      split at ht
      · simp at ht
      · next hc =>
        obtain rfl := Option.some.inj ht
        rw [Bool.or_eq_true, not_or, List.isEmpty_iff, List.isEmpty_iff] at hc
        refine ⟨p, _, rfl, hs, hc.1, fun c => List.mem_takeWhile_imp, hc.2, fun c hm => ?_, ?_⟩
        · simpa using List.mem_takeWhile_imp hm
        · intro c hm
          have hh := List.head?_dropWhile_not (!endsName ·) (after.dropWhile Text.isBlank)
          rw [Option.mem_def.mp hm] at hh
          simpa using hh
  · simp at ht

/-- Behind the lead of a header any text that begins as a name may is cut as its name and tail. -/
theorem Header.Sound.of?_lead {h : Header} {keyword blanks : Text} (hh : h.Sound keyword blanks)
    (a : Char) (r : Text) (ha : endsName a = false) :
    Header.of? (h.lead ++ a :: r) = some ⟨h.lead, (a :: r).takeWhile (!endsName ·),
      (a :: r).dropWhile (!endsName ·)⟩ := by
  have hl : (keyword ++ (blanks ++ a :: r)).take
      ((keyword ++ (blanks ++ a :: r)).length - (blanks ++ a :: r).length) = keyword := by simp
  have he : h.lead ++ a :: r = '@' :: (keyword ++ (blanks ++ a :: r)) := by
    rw [hh.lead_eq]
    simp
  rw [he, Header.of?]
  simp only [hh.keyword_ends, hl]
  rw [cut?_blanks _ _ _ a hh.blanks_ne_nil hh.blank ha, hh.lead_eq]

/-- A header under any name that begins as a name may is cut in the same place. -/
theorem Header.of?_named_cons (t name : Text) (h : Header) (a : Char) (ht : Header.of? t = some h)
    (ha : endsName a = false) : Header.of? (h.named (a :: name)) = some ⟨h.lead,
      (a :: name ++ h.tail).takeWhile (!endsName ·),
      (a :: name ++ h.tail).dropWhile (!endsName ·)⟩ := by
  obtain ⟨keyword, blanks, hh⟩ := Header.sound_of? t h ht
  have hn : h.named (a :: name) = h.lead ++ a :: (name ++ h.tail) := by
    rw [Header.named]
    simp
  rw [hn, hh.of?_lead a _ ha]
  rfl

/-- A header stays one under any name that begins as a name may. -/
theorem kind_named (t name : Text) (h : Header) (a : Char) (ht : Header.of? t = some h)
    (ha : endsName a = false) : kind (h.named (a :: name)) = .keyframes := by
  rw [kind, Header.of?_named_cons t name h a ht ha]
  rfl

/-- Put under another name, a header declares that name. -/
theorem Header.of?_named (t name : Text) (h : Header) (ht : Header.of? t = some h)
    (hn : name ≠ []) (hc : ∀ c ∈ name, endsName c = false) :
    Header.of? (h.named name) = some { h with name := name } := by
  obtain ⟨keyword, blanks, hh⟩ := Header.sound_of? t h ht
  obtain ⟨a, r, rfl⟩ := List.exists_cons_of_ne_nil hn
  have hp : ∀ c ∈ a :: r, (!endsName c) = true := fun c hm => by simp [hc c hm]
  have ht' : h.tail.takeWhile (!endsName ·) = [] ∧ h.tail.dropWhile (!endsName ·) = h.tail := by
    cases htl : h.tail with
    | nil => exact ⟨rfl, rfl⟩
    | cons c u =>
      have he := hh.tail_ends c (by simp [htl])
      exact ⟨List.takeWhile_cons_of_neg (by simp [he]), List.dropWhile_cons_of_neg (by simp [he])⟩
  rw [Header.of?_named_cons t r h a ht (hc a (by simp)), List.takeWhile_append_of_pos hp,
    List.dropWhile_append_of_pos hp, ht'.1, ht'.2, List.append_nil]

theorem kind_of_keyframesName (t n : Text) (h : keyframesName t = some n) :
    kind t = .keyframes := by
  obtain ⟨hd, ht, -⟩ := Option.map_eq_some_iff.mp h
  rw [kind, ht]
  rfl

end NestedCss.Prelude

namespace NestedCss.Book

/-- The rules that have declarations, with their keys. -/
def filledEntries (b : Book) : Book := b.filter (!·.2.lines.isEmpty)

theorem rules_filledEntries (b : Book) : b.filledEntries.rules = b.filled := by
  rw [filled, rules, rules, filledEntries, List.filter_map]
  rfl

theorem filledEntries_mapFilled (f : Rule → Rule) (b : Book)
    (hf : ∀ r, (f r).lines.isEmpty = r.lines.isEmpty) :
    (b.mapFilled f).filledEntries = b.filledEntries.map fun e => (e.1, f e.2) := by
  rw [filledEntries, mapFilled, List.filter_map]
  rw [List.filter_congr (q := fun e => !e.2.lines.isEmpty) fun e _ => ?_]
  · refine List.map_congr_left fun e he => ?_
    have hl := (List.mem_filter.mp he).2
    simp_all
  · simp only [Function.comp_apply]
    split <;> simp_all

theorem filled_mapFilled (f : Rule → Rule) (b : Book)
    (hf : ∀ r, (f r).lines.isEmpty = r.lines.isEmpty) :
    (b.mapFilled f).filled = b.filled.map f := by
  rw [← rules_filledEntries, filledEntries_mapFilled f b hf, ← rules_filledEntries, rules, rules,
    List.map_map, List.map_map]
  rfl

end NestedCss.Book

namespace NestedCss.Animation

theorem rename_of_names_nil (f : Text → Text) (b : Book) (h : names b.filled = []) :
    rename f b = b := by
  rw [rename, h]

theorem rename_of_names (f : Text → Text) (b : Book) (h : names b.filled ≠ []) :
    rename f b = b.mapFilled (renameRule (names b.filled) f) := by
  rw [rename]
  split
  · next he => exact absurd he h
  · rfl

/-- The rules that are filled, where some of them are keyframes. -/
theorem filled_rename_names (f : Text → Text) (b : Book) (h : names b.filled ≠ []) :
    (rename f b).filled = b.filled.map (renameRule (names b.filled) f) := by
  rw [rename_of_names f b h]
  exact Book.filled_mapFilled _ b fun r => by simp [renameRule]

theorem kind_renameGroup (f : Text → Text) (group : Text)
    (hf : ∀ name, ∃ a r, f name = a :: r ∧ Prelude.endsName a = false)
    (h : Prelude.kind group = .keyframes) : Prelude.kind (renameGroup f group) = .keyframes := by
  rw [renameGroup]
  split
  · next hd ht =>
    obtain ⟨a, r, hr, ha⟩ := hf hd.name
    rw [hr]
    exact Prelude.kind_named group r hd a ht ha
  · exact h

/-- Renaming changes no selector and makes no other group of a keyframes header. -/
theorem filled_rename (f : Text → Text) (b : Book) (r : Rule)
    (hf : ∀ name, ∃ a t, f name = a :: t ∧ Prelude.endsName a = false)
    (h : r ∈ (rename f b).filled) : ∃ s ∈ b.filled, r.selector = s.selector ∧
      (Prelude.kind s.group = .keyframes → Prelude.kind r.group = .keyframes) := by
  by_cases hn : names b.filled = []
  · rw [rename_of_names_nil f b hn] at h
    exact ⟨r, h, rfl, id⟩
  · rw [filled_rename_names f b hn] at h
    obtain ⟨s, hs, rfl⟩ := List.mem_map.mp h
    exact ⟨s, hs, rfl, kind_renameGroup f s.group hf⟩

end NestedCss.Animation
