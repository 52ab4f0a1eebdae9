import NestedCss.Proofs.Containment
import NestedCss.Proofs.NameRuns
import NestedCss.Proofs.Spelling

/-!
# Renaming keyframes

Naming keyframes after the scope touches the names of the headers and, in the declarations of
animations, the runs of name characters that are such a name. Each declaration of an animation has
a colon: without one its name would end in the semicolon.
-/

set_option autoImplicit false

namespace NestedCss

namespace Text

theorem lowercase_concat (t : Text) (c : Char) (hc : c ≠ '\u03a3') :
    ∃ u, lowercase (t ++ [c]) = u ++ lowercaseChar c := by
  have hg : ∀ before, ∃ u, lowercase.go before (t ++ [c]) = u ++ lowercaseChar c := by
    induction t with
    | nil => exact fun before => ⟨[], by simp [lowercase.go, hc]⟩
    | cons a t ih =>
      intro before
      obtain ⟨u, hu⟩ := ih (a :: before)
      exact ⟨_ ++ u, by rw [List.cons_append, lowercase.go, hu, List.append_assoc]⟩
  exact hg []

theorem trim_concat (t : Text) (c : Char) (hc : isBlank c = false) :
    ∃ u, trim (t ++ [c]) = u ++ [c] := by
  refine ⟨t.dropWhile isBlank, ?_⟩
  have hw : (t ++ [c]).dropWhile isBlank = t.dropWhile isBlank ++ [c] := by
    rw [List.dropWhile_append]
    split_ifs with h
    · simp [List.isEmpty_iff.mp h, hc]
    · rfl
  rw [trim, hw, dropTail_concat_solid _ c hc]

/-- What is dropped off the end of a text is a row of the character. -/
theorem dropTail_append_replicate (c : Char) (t : Text) :
    ∃ n, t = dropTail (· == c) t ++ List.replicate n c := by
  refine ⟨(t.reverse.takeWhile (· == c)).length, ?_⟩
  have hr : t.reverse.takeWhile (· == c) = List.replicate (t.reverse.takeWhile (· == c)).length c :=
    List.eq_replicate_iff.mpr ⟨rfl, fun d hd => by simpa using List.mem_takeWhile_imp hd⟩
  rw [← List.reverse_replicate, ← hr, dropTail, ← List.reverse_append,
    List.takeWhile_append_dropWhile, List.reverse_reverse]

theorem last_dropTail (p : Char → Bool) (t : Text) (c : Char)
    (h : (dropTail p t).getLast? = some c) : p c = false := by
  rw [dropTail, List.getLast?_reverse] at h
  have hh := List.head?_dropWhile_not p t.reverse
  rw [h] at hh
  simpa using hh

end Text

namespace Scan

theorem declarations_text (d : Draft) (line : Int) (e : Declaration)
    (h : .declaration e ∈ d.declarations line) : ∃ t, e.text = t ++ [';'] := by
  rw [Draft.declarations, Draft.declaration?] at h
  split_ifs at h with hd
  · simp at h
  · obtain rfl : e = ⟨d.text ++ [';'], line⟩ := by simpa using h
    exact ⟨d.text, rfl⟩

theorem mark_text (d : Draft) (line : Int) (c : Char) (e : Declaration)
    (h : .declaration e ∈ (d.mark line c).statements) : ∃ t, e.text = t ++ [';'] := by
  revert h
  fun_cases Draft.mark d line c with
  | case4 => exact fun h => declarations_text d line e (by simpa using h)
  | case5 => exact declarations_text d line e
  | _ => simp

/-- Each declaration that is read has its semicolon, even one that ends with its block. -/
theorem read_text (line : Int) (d : Draft) (xs : List Lexeme) (e : Declaration)
    (h : .declaration e ∈ (read line d xs).statements) : ∃ t, e.text = t ++ [';'] := by
  induction xs generalizing line d with
  | nil => exact declarations_text d line e h
  | cons x xs ih =>
    rcases List.mem_append.mp h with hs | hs
    · cases x with
      | mark c => exact mark_text d line c e hs
      | _ => simp [Draft.step] at hs
    · exact ih _ _ hs

end Scan

namespace Prelude

/-- A vendor mark such as `-webkit-`, or nothing. -/
def IsVendor (mark : Text) : Prop :=
  mark = [] ∨ ∃ word, word ≠ [] ∧ (∀ c ∈ word, isSmall c = true) ∧ mark = '-' :: word ++ ['-']

theorem afterVendor_split (t : Text) :
    ∃ mark, IsVendor mark ∧ t = mark ++ afterVendor isSmall t := by
  fun_cases afterVendor isSmall t with
  | case1 r a ls rest hrest hls =>
    have hw : ∀ c ∈ a :: ls, isSmall c = true := by
      rw [← hls]
      exact fun c => List.mem_takeWhile_imp
    refine ⟨'-' :: (a :: ls) ++ ['-'], Or.inr ⟨a :: ls, by simp, hw, rfl⟩, ?_⟩
    have hr : r = (a :: ls) ++ '-' :: rest := by
      rw [← hls, ← hrest, List.takeWhile_append_dropWhile]
    rw [hr]
    simp
  | case2 => exact ⟨[], Or.inl rfl, rfl⟩
  | case3 => exact ⟨[], Or.inl rfl, rfl⟩

theorem afterVendor_mark (word t : Text) (hn : word ≠ []) (hw : ∀ c ∈ word, isSmall c = true) :
    afterVendor isSmall ('-' :: word ++ ['-'] ++ t) = t := by
  have hd : isSmall '-' = false := by decide
  have ht : (word ++ '-' :: t).takeWhile isSmall = word := by
    rw [List.takeWhile_append_of_pos hw, List.takeWhile_cons, hd]
    simp
  have hr : (word ++ '-' :: t).dropWhile isSmall = '-' :: t := by
    rw [List.dropWhile_append_of_pos hw, List.dropWhile_cons, hd]
    simp
  obtain ⟨a, w, rfl⟩ := List.exists_cons_of_ne_nil hn
  have he : '-' :: (a :: w) ++ ['-'] ++ t = '-' :: (a :: w ++ '-' :: t) := by simp
  rw [he]
  simp only [afterVendor, ht, hr]

end Prelude

namespace Animation
open Scan Filing Prelude

/-- The names of declarations that refer to keyframes: those of the properties of animations, by
themselves or behind a vendor mark. -/
theorem refers_iff (name : Text) : refers name = true ↔
    ∃ mark p, IsVendor mark ∧ p ∈ properties ∧ name = mark ++ p := by
  rw [refers, List.contains_iff_mem]
  constructor
  · intro h
    obtain ⟨mark, hm, hs⟩ := afterVendor_split name
    exact ⟨mark, _, hm, h, hs⟩
  · rintro ⟨mark, p, rfl | ⟨word, hn, hw, rfl⟩, hp, rfl⟩
    · rcases List.mem_cons.mp hp with rfl | hp'
      · exact List.mem_cons_self
      · rw [List.mem_singleton.mp hp']
        exact List.mem_cons_of_mem _ List.mem_cons_self
    · rwa [afterVendor_mark word p hn hw]

/-- No name of an animation ends in a semicolon. -/
theorem not_refers_concat (t : Text) : refers (t ++ [';']) = false := by
  rw [← Bool.not_eq_true, refers_iff]
  rintro ⟨mark, p, -, hp, he⟩
  have hl := congrArg List.getLast? he
  rw [List.getLast?_append, List.getLast?_append] at hl
  rcases List.mem_cons.mp hp with rfl | hp
  · simp at hl
  · rw [List.mem_singleton.mp hp] at hl
    simp at hl

end Animation

namespace Declaration

theorem mem_colon (d : Declaration) (t : Text) (ht : d.text = t ++ [';'])
    (h : Animation.refers d.name = true) : ':' ∈ t := by
  by_contra hc
  have hh : d.head = t ++ [';'] := by
    rw [head, ht, List.takeWhile_eq_self_iff]
    intro c hm
    rcases List.mem_append.mp hm with hm | hm
    · simpa using ne_of_mem_of_not_mem hm hc
    · rw [List.mem_singleton.mp hm]
      decide
  obtain ⟨u, hu⟩ := Text.trim_concat t ';' (by decide)
  obtain ⟨v, hv⟩ := Text.lowercase_concat u ';' (by decide)
  have hn : d.name = v ++ [';'] := by rw [name, hh, hu, hv]; rfl
  rw [hn, Animation.not_refers_concat] at h
  exact Bool.noConfusion h

/-- The declaration of an animation is its head, a colon, its value and at least one semicolon. -/
theorem text_of_refers (d : Declaration) (t : Text) (ht : d.text = t ++ [';'])
    (h : Animation.refers d.name = true) :
    ∃ n, d.text = d.head ++ ':' :: d.value ++ List.replicate (n + 1) ';' := by
  have hc := mem_colon d t ht h
  obtain ⟨c, r, hr⟩ := List.exists_cons_of_ne_nil (l := t.dropWhile (· != ':')) (by
    rw [Ne, List.dropWhile_eq_nil_iff]
    exact fun hn => by simpa using hn ':' hc)
  obtain rfl : c = ':' := by
    have hh := List.head?_dropWhile_not (· != ':') t
    rw [hr] at hh
    simpa using hh
  have hd : d.text.dropWhile (· != ':') = ':' :: (r ++ [';']) := by
    rw [ht, List.dropWhile_append, hr]
    rfl
  obtain ⟨n, hn⟩ := Text.dropTail_append_replicate ';' r
  have hv : d.value = Text.dropTail (· == ';') r := by
    rw [value, hd, List.tail_cons, Text.dropTail_append_singleton]
    rfl
  refine ⟨n, ?_⟩
  calc d.text = d.head ++ ':' :: (r ++ [';']) := by
        rw [head, ← hd, List.takeWhile_append_dropWhile]
    _ = d.head ++ ':' :: d.value ++ List.replicate (n + 1) ';' := by
        rw [hv, List.replicate_succ']
        conv_lhs => rw [hn]
        simp

end Declaration

namespace Animation
open Scan Filing Prelude

/-- What becomes of a declaration when the keyframes of some names are renamed. One of an animation
keeps all but the names among the runs of its value, and one semicolon; any other stays. -/
inductive Refreshed (ns : List Text) (f : Text → Text) : Declaration → Declaration → Prop where
  | reference (head value : Text) (n : Nat) (line : Int) (mark p : Text) (hc : ':' ∉ head)
      (hv : value.getLast? ≠ some ';') (hm : IsVendor mark) (hp : p ∈ properties)
      (hn : Text.lowercase (Text.trim head) = mark ++ p) :
      Refreshed ns f ⟨head ++ ':' :: value ++ List.replicate (n + 1) ';', line⟩
        ⟨head ++ ':' :: Text.mapRuns ns f value ++ [';'], line⟩
  | other (d : Declaration)
      (hn : ∀ mark p, IsVendor mark → p ∈ properties → d.name ≠ mark ++ p) : Refreshed ns f d d

/-- What becomes of a group: a keyframes header gets its new name, and any other group stays. -/
inductive Rewritten (f : Text → Text) : Text → Text → Prop where
  | header (h : Header) (hh : Header.of? h.text = some h) :
      Rewritten f (h.lead ++ h.name ++ h.tail) (h.lead ++ f h.name ++ h.tail)
  | other (group : Text) (hk : kind group ≠ .keyframes) : Rewritten f group group

/-- What becomes of a rule that is filed under a key. -/
structure Renamed (ns : List Text) (f : Text → Text) (r s : Key × Rule) : Prop where
  key : s.1 = r.1
  selector : s.2.selector = r.2.selector
  idle : r.2.lines = [] → s.2 = r.2
  group : r.2.lines ≠ [] → Rewritten f r.2.group s.2.group
  lines : r.2.lines ≠ [] → List.Forall₂ (Refreshed ns f) r.2.lines s.2.lines

theorem rewritten_renameGroup (f : Text → Text) (group : Text) :
    Rewritten f group (renameGroup f group) := by
  rw [renameGroup]
  split
  · next h ht =>
    have hh := Header.text_of? group h ht
    rw [← hh] at ht ⊢
    exact .header h ht
  · next ht =>
    refine .other group ?_
    simp [kind, ht]
    split <;> simp

theorem refreshed_renameLine (ns : List Text) (f : Text → Text)
    (hn : ∀ n ∈ ns, n ≠ [] ∧ ∀ c ∈ n, Text.isName c = true) (d : Declaration) (t : Text)
    (ht : d.text = t ++ [';']) : Refreshed ns f d (renameLine ns f d) := by
  rw [renameLine]
  split_ifs with h
  · obtain ⟨n, hd⟩ := d.text_of_refers t ht h
    obtain ⟨mark, p, hm, hp, he⟩ := (refers_iff d.name).mp h
    rw [Text.replaceNames_eq_mapRuns ns f d.value hn]
    have hc : ':' ∉ d.head := fun hc => by simpa using List.mem_takeWhile_imp hc
    have hv : d.value.getLast? ≠ some ';' := fun hv => by simpa using Text.last_dropTail _ _ _ hv
    have hr : Refreshed ns f ⟨d.head ++ ':' :: d.value ++ List.replicate (n + 1) ';', d.line⟩
        ⟨d.head ++ ':' :: Text.mapRuns ns f d.value ++ [';'], d.line⟩ :=
      .reference d.head d.value n d.line mark p hc hv hm hp he
    rwa [← hd] at hr
  · refine .other d fun mark p hm hp he => h ?_
    exact (refers_iff d.name).mpr ⟨mark, p, hm, hp, he⟩

theorem mem_names (rules : List Rule) (n : Text) :
    n ∈ names rules ↔ ∃ r ∈ rules, keyframesName r.group = some n := by
  rw [names, List.mem_eraseDups, List.mem_filterMap]

theorem ne_nil_of_mem_names (rules : List Rule) (n : Text) (h : n ∈ names rules) : n ≠ [] := by
  obtain ⟨r, -, hr⟩ := (mem_names rules n).mp h
  obtain ⟨hd, ht, rfl⟩ := Option.map_eq_some_iff.mp hr
  obtain ⟨keyword, blanks, hs⟩ := Header.sound_of? r.group hd ht
  exact hs.name_ne_nil

theorem forall_mapFilled (ns : List Text) (f : Text → Text) (b : Book)
    (hn : ∀ n ∈ ns, n ≠ [] ∧ ∀ c ∈ n, Text.isName c = true)
    (hb : ∀ e ∈ b, ∀ d ∈ e.2.lines, ∃ t, d.text = t ++ [';']) :
    List.Forall₂ (Renamed ns f) b (b.mapFilled (renameRule ns f)) := by
  rw [Book.mapFilled, List.forall₂_map_right_iff, List.forall₂_same]
  rintro ⟨k, r⟩ he
  have hl := hb (k, r) he
  by_cases hr : r.lines = []
  · refine ⟨rfl, ?_, fun _ => ?_, fun h => absurd hr h, fun h => absurd hr h⟩ <;> simp [hr]
  · have hf : r.lines.isEmpty = false := by simpa using hr
    simp only [hf, Bool.false_eq_true, if_false]
    refine ⟨rfl, rfl, fun h => absurd h hr, fun _ => rewritten_renameGroup f r.group, fun _ => ?_⟩
    rw [renameRule, List.forall₂_map_right_iff, List.forall₂_same]
    intro d hd
    obtain ⟨t, ht⟩ := hl d hd
    exact refreshed_renameLine ns f hn d t ht

end Animation

namespace Unnesting
open Scan Filing Animation

/-- What keyframes get in front of their names by default. -/
def label (scope : Text) : Text := Scope.identifier scope ++ ['_']

/-- By default the ledger of the statements is kept, its keyframes labelled. -/
theorem run_standard (source scope : Text) :
    (start source scope Settings.standard).run.settings = Settings.standard ∧
      (start source scope Settings.standard).run.book =
        rename (label scope ++ ·) (ledger scope (readSource source).statements) := by
  let u := (start source scope Settings.standard).gather
  have hs : u.settings = Settings.standard := settings_gather _
  have hi : u.scope = scope := (filed_run _ _).scope_eq
  have hf : u.namespaced = (label scope ++ ·) := by
    funext m
    rw [namespaced, hi, hs, Settings.standard_eq]
    rfl
  have hr : u.renamed = { u with book := rename u.namespaced u.book } :=
    if_pos (by rw [hs]; rfl)
  refine ⟨(congrArg Unnesting.settings hr).trans hs, (congrArg Unnesting.book hr).trans ?_⟩
  have hb : u.book = ledger scope (readSource source).statements := (gather_book_by_path _).1
  show rename u.namespaced u.book = _
  rw [hf, hb]

/-- The run in which keyframes keep their names. -/
def plainRun (source scope : Text) (settings : Settings) : Unnesting :=
  (start source scope { settings with namespaced := false }).run

theorem book_text (source scope : Text) (settings : Settings) (e : Key × Rule)
    (he : e ∈ (start source scope settings).gather.book) :
    ∀ d ∈ e.2.lines, ∃ t, d.text = t ++ [';'] := by
  intro d hd
  rw [(gather_book_by_path _).1] at he
  exact read_text _ _ _ d (mem_lines_ledger _ _ e.2 d (List.mem_map_of_mem he) hd)

/-- Naming keyframes after the scope renames whole names in headers and references, and nothing
else: the run is that in which keyframes keep their names, but for the rules that are filled. -/
theorem run_renames_keyframes (source id : Text) (settings : Settings)
    (hs : settings.namespaced = true)
    (hn : ∀ n ∈ names (plainRun source ('.' :: id) settings).book.filled,
      ∀ c ∈ n, Text.isName c = true) :
    let plain := plainRun source ('.' :: id) settings
    let run := (start source ('.' :: id) settings).run
    let ns := names plain.book.filled
    run = { plain with settings := settings, book := run.book } ∧
      (ns = [] → run.book = plain.book) ∧
      (ns ≠ [] → List.Forall₂ (Renamed ns fun n => id ++ settings.separator ++ n)
        plain.book run.book) := by
  intro plain run ns
  let u := start source ('.' :: id) { settings with namespaced := false }
  have hp : plain = u.gather := if_neg (by simp [settings_gather, start])
  have hg : (start source ('.' :: id) settings).gather = { plain with settings := settings } := by
    rw [hp]
    exact gather_with_settings u settings
  have hi : (start source ('.' :: id) settings).gather.scope = '.' :: id := (filed_run _ _).scope_eq
  have hf : (start source ('.' :: id) settings).gather.namespaced =
      fun n => id ++ settings.separator ++ n := by
    funext n
    rw [namespaced, hi, settings_gather]
    rfl
  have hr : run = { plain with
      settings := settings
      book := rename (fun n => id ++ settings.separator ++ n) plain.book } := by
    have hn : (start source ('.' :: id) settings).gather.settings.namespaced = true := by
      rw [settings_gather]
      exact hs
    rw [← hf]
    exact (if_pos hn).trans (by rw [hg])
  have hb : run.book = rename (fun n => id ++ settings.separator ++ n) plain.book := by rw [hr]
  refine ⟨by rw [hb]; exact hr, fun hns => hb.trans (rename_of_names_nil _ _ hns), fun hns => ?_⟩
  rw [hb, rename_of_names _ _ hns]
  refine forall_mapFilled ns _ plain.book (fun n hm => ⟨ne_nil_of_mem_names _ n hm, hn n hm⟩) ?_
  rw [hp]
  exact book_text source ('.' :: id) _

theorem run_renames_keyframes_of_fades :
    let source := ("@keyframes fade\x7bfrom\x7btop:0;\x7d\x7d" ++
      "@KEYFRAMES  fade-in\x7bto\x7btop:1px;\x7d\x7d" ++
      ".a\x7bAnimation :fade-in 2s,fade 1s;;-webkit-animation-name:fade;color:fade;\x7d").toList
    let plain := plainRun source ".s".toList Settings.standard
    let run := (start source ".s".toList Settings.standard).run
    names plain.book.filled = ["fade".toList, "fade-in".toList] ∧
      List.Forall₂ (Renamed ["fade".toList, "fade-in".toList] fun n => "s_".toList ++ n)
        plain.book run.book := by
  intro source plain run
  have hn : names plain.book.filled = ["fade".toList, "fade-in".toList] := by decide +kernel
  have hc : ∀ n ∈ names plain.book.filled, ∀ c ∈ n, Text.isName c = true := by
    rw [hn]
    decide
  have h := (run_renames_keyframes source "s".toList Settings.standard rfl hc).2.2 (by
    rw [show names (plainRun source ('.' :: "s".toList) Settings.standard).book.filled = _ from hn]
    simp)
  refine ⟨hn, ?_⟩
  rw [← hn]
  exact h

end Unnesting

end NestedCss
