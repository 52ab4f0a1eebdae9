import NestedCss.Proofs.FlatSheets
import NestedCss.Proofs.Renaming
import NestedCss.Proofs.Stability

/-!
# Namespaces of scopes

Each scope declares its keyframes in a namespace of its own: behind the identifier of the scope and
an underscore. Two namespaces meet when one identifier goes on from the other with an underscore,
since what follows the shorter one may then as well be a name. No other two meet.
-/

set_option autoImplicit false

namespace NestedCss

namespace Animation
open Prelude

/-- Under another name a header is cut where it was, and nothing else becomes one. -/
theorem of?_renameGroup (f : Text → Text) (group : Text)
    (hf : ∀ n, n ≠ [] → (∀ c ∈ n, endsName c = false) → f n ≠ [] ∧ ∀ c ∈ f n, endsName c = false) :
    Header.of? (renameGroup f group) =
      (Header.of? group).map fun h => { h with name := f h.name } := by
  rw [renameGroup]
  cases ht : Header.of? group with
  | none => simp [ht]
  | some h =>
    obtain ⟨keyword, blanks, hs⟩ := Header.sound_of? group h ht
    obtain ⟨hn, hc⟩ := hf h.name hs.name_ne_nil hs.name_goes_on
    exact Header.of?_named group (f h.name) h ht hn hc

/-- Under another name a header declares that name, and nothing else does. -/
theorem keyframesName_renameGroup (f : Text → Text) (group : Text)
    (hf : ∀ n, n ≠ [] → (∀ c ∈ n, endsName c = false) → f n ≠ [] ∧ ∀ c ∈ f n, endsName c = false) :
    keyframesName (renameGroup f group) = (keyframesName group).map f := by
  rw [keyframesName, of?_renameGroup f group hf, keyframesName, Option.map_map, Option.map_map]
  rfl

/-- The names of renamed keyframes are the names renamed. -/
theorem mem_names_rename (f : Text → Text) (b : Book) (n : Text)
    (hf : ∀ n, n ≠ [] → (∀ c ∈ n, endsName c = false) → f n ≠ [] ∧ ∀ c ∈ f n, endsName c = false) :
    n ∈ names (rename f b).filled ↔ ∃ m ∈ names b.filled, n = f m := by
  by_cases hn : names b.filled = []
  · simp [rename_of_names_nil f b hn, hn]
  · simp only [mem_names, filled_rename_names f b hn, List.mem_map, exists_exists_and_eq_and]
    have hk : ∀ r : Rule, keyframesName (renameRule (names b.filled) f r).group =
        (keyframesName r.group).map f := fun r => keyframesName_renameGroup f r.group hf
    constructor
    · rintro ⟨r, hr, he⟩
      rw [hk, Option.map_eq_some_iff] at he
      obtain ⟨m, hm, rfl⟩ := he
      exact ⟨m, ⟨r, hr, hm⟩, rfl⟩
    · rintro ⟨m, ⟨r, hr, hm⟩, rfl⟩
      exact ⟨r, hr, by rw [hk, hm]; rfl⟩

end Animation

namespace Sheet

/-- The names that are declared by the headers of a sheet. -/
def keyframes (rules : List Rule) : List Text := (groups rules).filterMap Prelude.keyframesName

theorem mem_keyframes (rules : List Rule) (n : Text) :
    n ∈ keyframes rules ↔ n ∈ Animation.names rules := by
  simp [keyframes, groups, Animation.mem_names]

end Sheet

namespace Namespaces
open Scan Filing Containment Animation

variable {scope : Text}

theorem identifier_class (h : IsClass scope) :
    Text.IsWordText (Scope.identifier scope) ∧ scope = '.' :: Scope.identifier scope := by
  obtain ⟨a, w, rfl, hw⟩ := h
  exact ⟨⟨by simp [Scope.identifier], hw⟩, rfl⟩

theorem endsName_word (c : Char) (h : Text.isWord c = true) : Prelude.endsName c = false := by
  have hc : c ≠ '{' := by
    rintro rfl
    exact absurd h (by decide)
  simp [Prelude.endsName, Text.isBlank_word c h, hc]

theorem word_label (h : IsClass scope) : Text.IsWordText (Unnesting.label scope) := by
  obtain ⟨⟨-, hw⟩, -⟩ := identifier_class h
  refine ⟨by simp [Unnesting.label], fun c hc => ?_⟩
  rcases List.mem_append.mp hc with hc | hc
  · exact hw c hc
  · obtain rfl := List.mem_singleton.mp hc
    decide

/-- Behind the identifier of a scope a name is a name. -/
theorem name_label (h : IsClass scope) (n : Text) (hn : n ≠ [])
    (hc : ∀ c ∈ n, Prelude.endsName c = false) :
    Unnesting.label scope ++ n ≠ [] ∧
      ∀ c ∈ Unnesting.label scope ++ n, Prelude.endsName c = false := by
  refine ⟨by simp [hn], fun c hcn => ?_⟩
  rcases List.mem_append.mp hcn with hcn | hcn
  · exact endsName_word c ((word_label h).2 c hcn)
  · exact hc c hcn

/-- What a scope declares are the names of its keyframes, behind its identifier. -/
theorem mem_keyframes_run (h : IsClass scope) (source n : Text) :
    n ∈ Sheet.keyframes (Unnesting.start source scope Settings.standard).run.book.filled ↔
      ∃ m ∈ names (ledger scope (readSource source).statements).filled,
        n = Unnesting.label scope ++ m := by
  rw [Sheet.mem_keyframes, (Unnesting.run_standard source scope).2]
  exact mem_names_rename _ _ _ (name_label h)

/-- A source of one keyframes block under a name. -/
def sample (name : Text) : Text :=
  "@keyframes ".toList ++ name ++ ['{'] ++ (['t', 'o'] ++ ['{'] ++
    ("top:0".toList ++ [';'] ++ ['}'] ++ ['}']))

theorem copied_header (n : Text) (hn : Text.IsWordText n) : Copied ("@keyframes ".toList ++ n) := by
  obtain ⟨hne, hw⟩ := hn
  obtain ⟨c, r, rfl⟩ := List.exists_cons_of_ne_nil hne
  have hname : ∀ a ∈ c :: r, Text.isName a = true := fun a ha => Text.isName_of_isWord a (hw a ha)
  refine ⟨?_, (Text.trimmed_iff _).mpr ⟨?_, ?_⟩, fun a ha => ?_⟩
  · exact fair_space "@keyframes".toList r c (by decide) (fair_word _ hw) (by decide)
      (quiet_name c (hname c (by simp))).2
  · intro a ha
    obtain rfl : '@' = a := by simpa using ha
    decide
  · intro a ha
    rw [List.getLast?_append_of_ne_nil _ hne] at ha
    exact Text.isBlank_word a (hw a (List.mem_of_mem_getLast? ha))
  · rcases List.mem_append.mp ha with ha | ha
    · have hk : ∀ a ∈ "@keyframes ".toList, Text.Plain a := by decide
      exact hk a ha
    · exact ⟨ne_of_isName '\r' a (by decide) (hname a ha),
        ne_of_isName '\x0c' a (by decide) (hname a ha)⟩

theorem statements_sample (n : Text) (hn : Text.IsWordText n) :
    (readSource (sample n)).statements.map Statement.unplaced =
      [.opening ("@keyframes ".toList ++ n) 0, .opening ['t', 'o'] 0,
        .declaration ⟨"top:0;".toList, 0⟩, .closing 0, .closing 0] := by
  have hto : Copied ['t', 'o'] := ⟨by decide, by decide, by decide⟩
  have htop : Copied "top:0".toList := ⟨by decide, by decide, by decide⟩
  have h := spells_append _ _ _ _ (spells_opening _ (copied_header n hn))
    (spells_append _ _ _ _ (spells_opening _ hto)
      (spells_append _ _ _ _
        (spells_append _ _ _ _ (spells_declaration _ htop (by decide)) spells_closing)
        spells_closing))
  exact statements_of_spells _ _ h

theorem keyframesName_header (n : Text) (hn : Text.IsWordText n) :
    Prelude.keyframesName ("@keyframes ".toList ++ n) = some n := by
  have ht : Prelude.Header.of? "@keyframes x".toList = some ⟨"@keyframes ".toList, ['x'], []⟩ := rfl
  have hh := Prelude.Header.of?_named _ n _ ht hn.1 fun c hc => endsName_word c (hn.2 c hc)
  have he : Prelude.Header.named ⟨"@keyframes ".toList, ['x'], []⟩ n = "@keyframes ".toList ++ n :=
    List.append_nil _
  rw [Prelude.keyframesName, ← he, hh]
  rfl

/-- Within keyframes the scope takes no part in the key. -/
theorem pathKey_keyframes (h : IsClass scope) (header : Text)
    (hk : Prelude.kind header = .keyframes) :
    pathKey scope [header, ['t', 'o']] = ⟨header, ['t', 'o']⟩ := by
  have ht : Prelude.kind ['t', 'o'] ≠ .keyframes := by decide
  refine Stability.key_keyframes header ['t', 'o'] hk ?_
  rw [Stability.Returns, if_pos hk]
  refine ⟨ht, fun e he => ?_⟩
  obtain rfl : e = ['t', 'o'] := List.mem_singleton.mp he
  obtain ⟨a, w, rfl, -⟩ := h
  rfl

theorem name_sample (h : IsClass scope) (n : Text) (hn : Text.IsWordText n) :
    n ∈ names (ledger scope (readSource (sample n)).statements).filled := by
  let header := "@keyframes ".toList ++ n
  let ts : List Statement := [.opening header 0, .opening ['t', 'o'] 0,
    .declaration ⟨"top:0;".toList, 0⟩, .closing 0, .closing 0]
  let u := (Unnesting.start (sample n) scope Settings.standard).restart
  have ha : Unnesting.Agrees u u := ⟨rfl, rfl, rfl, rfl, rfl⟩
  have hb := (Unnesting.agrees_takeAll ha (readSource (sample n)).statements ts
    (statements_sample n hn)).book_eq
  have hg : (u.takeAll ts).book = ledger scope ts := (filed_run u ts).book_eq
  have hname := keyframesName_header n hn
  have hp := pathKey_keyframes h header (Prelude.kind_of_keyframesName header n hname)
  obtain ⟨r, hr, hrk, -⟩ := exists_filled_ledger scope ts
    (⟨"top:0;".toList, 0⟩, [header, ['t', 'o']]) (by simp [ts, located, openPreludes, lookBack])
  have hm : n ∈ names (ledger scope ts).filled := by
    rw [mem_names]
    rw [hp] at hrk
    exact ⟨r, hr, by rwa [← (Key.mk.inj hrk).1]⟩
  have hr : (u.takeAll (readSource (sample n)).statements).book =
      ledger scope (readSource (sample n)).statements := (filed_run u _).book_eq
  rwa [← hg, ← names_unplaced, ← hb, names_unplaced, hr] at hm

/-- The names that a source declares under a scope. -/
def namesOf (source scope : Text) : List Text :=
  Sheet.keyframes (Unnesting.start source scope Settings.standard).run.book.filled

theorem mem_namesOf_sample (h : IsClass scope) (n : Text) (hn : Text.IsWordText n) :
    Unnesting.label scope ++ n ∈ namesOf (sample n) scope :=
  (mem_keyframes_run h _ _).mpr ⟨n, name_sample h n hn, rfl⟩

variable {scope₁ scope₂ : Text}

/-- Where one identifier goes on from another with an underscore, some name comes up in both. -/
theorem meet_of_prefix (h₁ : IsClass scope₁) (h₂ : IsClass scope₂)
    (hp : Unnesting.label scope₁ <+: Scope.identifier scope₂) :
    ∃ source₁ source₂ name, name ∈ namesOf source₁ scope₁ ∧ name ∈ namesOf source₂ scope₂ := by
  obtain ⟨v, hv⟩ := hp
  have hw : ∀ c ∈ v ++ ['_', 'x'], Text.isWord c = true := by
    intro c hc
    rcases List.mem_append.mp hc with hc | hc
    · exact (identifier_class h₂).1.2 c (hv ▸ List.mem_append_right _ hc)
    · have hx : ∀ c ∈ ['_', 'x'], Text.isWord c = true := by decide
      exact hx c hc
  have h₃ := mem_namesOf_sample h₁ (v ++ ['_', 'x']) ⟨by simp, hw⟩
  have h₄ := mem_namesOf_sample h₂ ['x'] (by decide)
  have he : Unnesting.label scope₂ ++ ['x'] = Unnesting.label scope₁ ++ (v ++ ['_', 'x']) := by
    rw [Unnesting.label, ← hv]
    simp
  rw [he] at h₄
  exact ⟨_, _, _, h₃, h₄⟩

/-- Labelled names are the same only where one identifier goes on from the other with an
underscore. -/
theorem prefix_of_meet (m n : Text) (hne : Scope.identifier scope₁ ≠ Scope.identifier scope₂)
    (h : Unnesting.label scope₁ ++ m = Unnesting.label scope₂ ++ n) :
    Unnesting.label scope₁ <+: Scope.identifier scope₂ ∨
      Unnesting.label scope₂ <+: Scope.identifier scope₁ := by
  have longer : ∀ (a v m n : Text), v ≠ [] → '_' :: m = v ++ '_' :: n → a ++ ['_'] <+: a ++ v := by
    intro a v m n hv he
    obtain ⟨c, w, rfl⟩ := List.exists_cons_of_ne_nil hv
    obtain ⟨rfl, -⟩ := List.cons.inj he
    exact ⟨w, by simp⟩
  rw [Unnesting.label, Unnesting.label, List.append_assoc, List.append_assoc] at h
  rcases List.append_eq_append_iff.mp h with ⟨v, hs, hv⟩ | ⟨v, hs, hv⟩
  · rw [hs] at hne ⊢
    exact Or.inl (longer _ v m n (by rintro rfl; simp at hne) hv)
  · rw [hs] at hne ⊢
    exact Or.inr (longer _ v n m (by rintro rfl; simp at hne) hv)

/-- The keyframes of two scopes never meet, whatever is declared, just when neither identifier goes
on from the other with an underscore. -/
theorem namespaces_apart_iff (h₁ : IsClass scope₁) (h₂ : IsClass scope₂) (hne : scope₁ ≠ scope₂) :
    (∀ source₁ source₂, List.Disjoint (namesOf source₁ scope₁) (namesOf source₂ scope₂)) ↔
      ¬ Scope.identifier scope₁ ++ ['_'] <+: Scope.identifier scope₂ ∧
        ¬ Scope.identifier scope₂ ++ ['_'] <+: Scope.identifier scope₁ := by
  constructor
  · intro h
    refine ⟨fun hp => ?_, fun hp => ?_⟩
    · obtain ⟨s, t, n, hs, ht⟩ := meet_of_prefix h₁ h₂ hp
      exact h s t hs ht
    · obtain ⟨s, t, n, hs, ht⟩ := meet_of_prefix h₂ h₁ hp
      exact h t s ht hs
  · rintro ⟨hp, hq⟩ source₁ source₂ name hn₁ hn₂
    obtain ⟨m, -, rfl⟩ := (mem_keyframes_run h₁ _ _).mp hn₁
    obtain ⟨n, -, he⟩ := (mem_keyframes_run h₂ _ _).mp hn₂
    have hi : Scope.identifier scope₁ ≠ Scope.identifier scope₂ := by
      intro hi
      rw [(identifier_class h₁).2, (identifier_class h₂).2, hi] at hne
      exact hne rfl
    exact (prefix_of_meet m n hi he).elim hp hq

theorem namespaces_apart_of_cards :
    let source := "@keyframes s_x\x7bto\x7btop:0;\x7d\x7d".toList
    namesOf source ".card".toList = ["card_s_x".toList] ∧
      List.Disjoint (namesOf source ".card".toList) (namesOf source ".cards".toList) := by
  intro source
  have hc : IsClass ".card".toList := ⟨'c', "ard".toList, rfl, by decide⟩
  have hd : IsClass ".cards".toList := ⟨'c', "ards".toList, rfl, by decide⟩
  refine ⟨by decide +kernel, ?_⟩
  exact (namespaces_apart_iff hc hd (by decide)).mpr (by decide) source source

/-- Two scopes whose keyframes meet: what is `b_c` in one is `c` in the other. -/
theorem namespaces_meet_at_underscore :
    ∃ scope₁ scope₂ source₁ source₂ name, IsClass scope₁ ∧ IsClass scope₂ ∧ scope₁ ≠ scope₂ ∧
      name ∈ namesOf source₁ scope₁ ∧ name ∈ namesOf source₂ scope₂ := by
  refine ⟨".a".toList, ".a_b".toList, "@keyframes b_c\x7bto\x7btop:0;\x7d\x7d".toList,
    "@keyframes c\x7bto\x7btop:0;\x7d\x7d".toList, "a_b_c".toList, ⟨'a', [], rfl, by decide⟩,
    ⟨'a', "_b".toList, rfl, by decide⟩, by decide, ?_, ?_⟩
  · decide +kernel
  · decide +kernel

end Namespaces

end NestedCss
