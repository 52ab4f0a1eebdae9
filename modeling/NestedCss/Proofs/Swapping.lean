import NestedCss.Proofs.Arrivals
import NestedCss.Proofs.Blocks
import NestedCss.Proofs.Leading
import NestedCss.Proofs.Placeless

/-!
# Conditions and selectors

Outside keyframes the conditions of a stack and its selectors are told apart, so a condition and a
selector right within it may change places: anchoring looks past conditions, and whatever stands
within both goes by the same key as before. Only the key of the outer block by itself may be another
one, and nothing is filed under it.
-/

set_option autoImplicit false

namespace NestedCss

namespace Filing

open Scan Containment Prelude

variable {scope : Text}

/-! ## Paths -/

theorem filter_swap {α : Type} (p : α → Bool) (x y : α) (l r : List α)
    (h : p x = false ∨ p y = false) :
    (l ++ x :: y :: r).filter p = (l ++ y :: x :: r).filter p := by
  rw [List.filter_append, List.filter_append]
  congr 1
  rcases h with h | h <;> simp [List.filter_cons, h]

/-- A condition and a selector that lie one on the other may change places where no keyframes lie
below them. -/
theorem key_swap (below above : List Text) (m s : Text) (hm : kind m = .condition)
    (hs : kind s = .selector) (hb : ∀ t ∈ below, kind t ≠ .keyframes) :
    Key.ofStack (below ++ m :: s :: above) = Key.ofStack (below ++ s :: m :: above) := by
  cases hi : innermostKeyframes above with
  | some found =>
    -- The header decides the key, and both lie below it.
    obtain ⟨header, top⟩ := found
    obtain ⟨hh, ht, mid, rfl⟩ := innermost_keyframes_some above top header hi
    have hk : ∀ x y, Key.ofStack (below ++ x :: y :: (mid ++ header :: top)) =
        ⟨header, Path.compose top⟩ := by
      intro x y
      have h := key_of_header (below ++ x :: y :: mid) top header hh ht
      simpa using h
    rw [hk, hk]
  | none =>
    -- The key is told from the conditions and from the selectors, each in their order.
    have ha := innermost_keyframes_none above hi
    have hn : ∀ x y, kind x ≠ .keyframes → kind y ≠ .keyframes →
        innermostKeyframes (below ++ x :: y :: above) = none := by
      intro x y hx hy
      refine innermost_keyframes_of_none _ fun t ht => ?_
      simp only [List.mem_append, List.mem_cons] at ht
      rcases ht with ht | rfl | rfl | ht
      · exact hb t ht
      · exact hx
      · exact hy
      · exact ha t ht
    have hf : ∀ k, ofKind k (below ++ m :: s :: above) = ofKind k (below ++ s :: m :: above) := by
      intro k
      refine filter_swap _ m s below above ?_
      cases k <;> simp [hm, hs]
    have hm' : kind m ≠ .keyframes := by simp [hm]
    have hs' : kind s ≠ .keyframes := by simp [hs]
    rw [Key.ofStack, Key.ofStack, hn m s hm' hs', hn s m hs' hm', hf, hf]

/-- Anchoring looks past conditions. -/
theorem anchor_past_condition (stack : List Text) (m t : Text) (hm : kind m = .condition)
    (hn : stack ≠ []) : Scope.anchor scope (stack ++ [m]) t = Scope.anchor scope stack t := by
  have ht : (stack ++ [m]).tail.any (kind · == .selector) =
      stack.tail.any (kind · == .selector) := by
    rw [List.tail_append_of_ne_nil hn, List.any_append, List.any_cons, hm]
    simp
  rw [Scope.anchor, Scope.anchor, ht]

/-- On a selector the path goes onto the stack as it is. -/
theorem pathStack_on_selector (path rest : List Text)
    (h : ∃ s ∈ (pathStack scope path).tail, kind s = .selector) :
    pathStack scope (path ++ rest) = pathStack scope path ++ rest := by
  induction rest using List.reverseRecOn with
  | nil => simp
  | append_singleton rest t ih =>
    obtain ⟨s, hs, hk⟩ := h
    have hm : s ∈ (pathStack scope (path ++ rest)).tail := by
      rw [ih, List.tail_append_of_ne_nil (by rw [pathStack_head]; simp)]
      exact List.mem_append_left rest hs
    rw [← List.append_assoc, path_stack_concat, Scope.anchor_of_selector _ t ⟨s, hm, hk⟩, ih,
      List.append_assoc]

theorem kind_pathStack (h : IsClass scope) (path : List Text)
    (hp : ∀ t ∈ path, kind t ≠ .keyframes) : ∀ t ∈ pathStack scope path, kind t ≠ .keyframes := by
  intro t ht
  rw [pathStack_head] at ht
  rcases List.mem_cons.mp ht with rfl | ht
  · rw [kind_class h]
    decide
  · exact forall_stack scope (kind · ≠ .keyframes) path
      (fun stack t ht => by rwa [Scope.kind_anchor]) hp t ht

/-- A condition and a selector right within it change places without notice. -/
theorem pathKey_swap (h : IsClass scope) (path rest : List Text) (m s : Text)
    (hm : kind m = .condition) (hs : kind s = .selector)
    (hp : ∀ t ∈ path, kind t ≠ .keyframes) :
    pathKey scope (path ++ [m] ++ [s] ++ rest) = pathKey scope (path ++ [s] ++ [m] ++ rest) := by
  let stack := pathStack scope path
  let s' := Scope.anchor scope stack s
  have hne : stack ≠ [] := by
    show pathStack scope path ≠ []
    rw [pathStack_head]
    simp
  have hs' : kind s' = .selector := (Scope.kind_anchor stack s).trans hs
  have hmk : ∀ stack, Scope.anchor scope stack m = m := fun stack =>
    Stability.anchor_of_kind stack m (by simp [hm])
  -- The selector is anchored alike on the condition and below it.
  have h₁ : pathStack scope (path ++ [m] ++ [s]) = stack ++ [m] ++ [s'] := by
    rw [path_stack_concat, path_stack_concat, hmk, anchor_past_condition _ m s hm hne]
  have h₂ : pathStack scope (path ++ [s] ++ [m]) = stack ++ [s'] ++ [m] := by
    rw [path_stack_concat, path_stack_concat, hmk]
  -- Either way the selector keeps all that is nested deeper from being anchored.
  have ht : ∀ x y, x = s' ∨ y = s' → ∃ t ∈ (stack ++ [x] ++ [y]).tail, kind t = .selector := by
    intro x y hxy
    refine ⟨s', ?_, hs'⟩
    rw [List.append_assoc, List.tail_append_of_ne_nil hne]
    rcases hxy with rfl | rfl <;> simp
  have h₃ := pathStack_on_selector (path ++ [m] ++ [s]) rest (h₁ ▸ ht m s' (Or.inr rfl))
  have h₄ := pathStack_on_selector (path ++ [s] ++ [m]) rest (h₂ ▸ ht s' m (Or.inl rfl))
  rw [pathKey, pathKey, h₃, h₄, h₁, h₂]
  simpa using key_swap stack rest m s' hm hs' (kind_pathStack h path hp)

/-- The group of a place outside keyframes is no keyframes header. -/
theorem keyframesName_outside (h : IsClass scope) (path : List Text)
    (hp : ∀ t ∈ path, kind t ≠ .keyframes) : keyframesName (pathKey scope path).group = none := by
  have hn := innermost_keyframes_of_none _ (kind_pathStack h path hp)
  have hg : (pathKey scope path).group =
      Condition.conjoin (ofKind .condition (pathStack scope path)) := by
    rw [pathKey, Key.ofStack, hn]
  have hk := kind_conjoin _ (kind_ofKind .condition (pathStack scope path))
  rw [← hg] at hk
  rw [Option.eq_none_iff_forall_ne_some]
  intro n hname
  rw [kind_of_keyframesName _ n hname] at hk
  split at hk <;> simp at hk

/-! ## Trails -/

/-- The statements with the keys that they lead to. -/
def trail (scope : Text) (path : List Text) (ts : List Statement) : List (Statement × Key) :=
  (traced path ts).map fun p => (p.1, pathKey scope p.2)

theorem trail_append (path : List Text) (ss ts : List Statement) :
    trail scope path (ss ++ ts) = trail scope path ss ++ trail scope (ss.foldl behind path) ts := by
  rw [trail, traced_append, List.map_append]
  rfl

/-- The trail of statements that are well nested follows from the keys beneath the path. -/
theorem trail_nested {ss : List Statement} (hn : WellNested ss) (path path' : List Text)
    (h : ∀ rest, pathKey scope (path ++ rest) = pathKey scope (path' ++ rest)) :
    trail scope path ss = trail scope path' ss := by
  rw [trail, trail, (traced_nested hn path).2, (traced_nested hn path').2, List.map_map,
    List.map_map]
  exact List.map_congr_left fun p _ => congrArg (Prod.mk p.1) (h p.2)

/-- Two blocks, one right within the other. -/
def twofold (s₁ s₂ : Text × Int) (inner : List Statement) (line₁ line₂ : Int) : List Statement :=
  .opening s₁.1 s₁.2 :: (.opening s₂.1 s₂.2 :: inner ++ [.closing line₁]) ++ [.closing line₂]

theorem traced_twofold {inner : List Statement} (hn : WellNested inner) (path : List Text)
    (s₁ s₂ : Text × Int) (line₁ line₂ : Int) :
    (twofold s₁ s₂ inner line₁ line₂).foldl behind path = path ∧
      traced path (twofold s₁ s₂ inner line₁ line₂) =
        (.opening s₁.1 s₁.2, path ++ [s₁.1]) ::
          ((.opening s₂.1 s₂.2, path ++ [s₁.1] ++ [s₂.1]) ::
            traced (path ++ [s₁.1] ++ [s₂.1]) inner ++ [(.closing line₁, path ++ [s₁.1])]) ++
          [(.closing line₂, path)] := by
  have hi := (traced_nested hn (path ++ [s₁.1] ++ [s₂.1])).1
  obtain ⟨hb, ht⟩ := traced_block (path ++ [s₁.1]) s₂.1 s₂.2 line₁ inner hi
  obtain ⟨hb', ht'⟩ := traced_block path s₁.1 s₁.2 line₂ _ hb
  exact ⟨hb', by rw [twofold, ht', ht]⟩

/-- What is taken from a trail but not from the braces outside keyframes: from two blocks it is taken
from within both. -/
theorem filterMap_twofold {α : Type} (f : Statement × Key → Option α)
    (hf : ∀ s path, (∀ d, s ≠ .declaration d) → (∀ t ∈ path, kind t ≠ .keyframes) →
      f (s, pathKey scope path) = none)
    {inner : List Statement} (hn : WellNested inner) (path : List Text) (s₁ s₂ : Text × Int)
    (line₁ line₂ : Int) (hp : ∀ t ∈ path ++ [s₁.1] ++ [s₂.1], kind t ≠ .keyframes) :
    (trail scope path (twofold s₁ s₂ inner line₁ line₂)).filterMap f =
      (trail scope (path ++ [s₁.1] ++ [s₂.1]) inner).filterMap f := by
  have h₁ : ∀ t ∈ path ++ [s₁.1], kind t ≠ .keyframes := fun t ht =>
    hp t (List.mem_append_left _ ht)
  have h₀ : ∀ t ∈ path, kind t ≠ .keyframes := fun t ht => h₁ t (List.mem_append_left _ ht)
  rw [trail, (traced_twofold hn path s₁ s₂ line₁ line₂).2]
  simp only [List.map_cons, List.map_append, List.map_nil, List.cons_append]
  rw [List.filterMap_cons_none (hf _ _ (by simp) h₁), List.filterMap_cons_none (hf _ _ (by simp) hp),
    List.filterMap_append, List.filterMap_append, List.filterMap_cons_none (hf _ _ (by simp) h₁),
    List.filterMap_cons_none (hf _ _ (by simp) h₀), List.filterMap_nil, List.append_nil,
    List.append_nil, trail]

/-- It is the same when a condition and a selector right within it change places. -/
theorem filterMap_trail_swap (h : IsClass scope) {α : Type} (f : Statement × Key → Option α)
    (hf : ∀ s path, (∀ d, s ≠ .declaration d) → (∀ t ∈ path, kind t ≠ .keyframes) →
      f (s, pathKey scope path) = none)
    {inner : List Statement} (hn : WellNested inner) (before after : List Statement)
    (m s : Text × Int) (line₁ line₂ : Int) (hm : kind m.1 = .condition)
    (hs : kind s.1 = .selector) (hb : ∀ t ∈ openPreludes before, kind t ≠ .keyframes) :
    (trail scope [] (before ++ twofold m s inner line₁ line₂ ++ after)).filterMap f =
      (trail scope [] (before ++ twofold s m inner line₁ line₂ ++ after)).filterMap f := by
  let path := openPreludes before
  have hp : ∀ x y, kind x ≠ .keyframes → kind y ≠ .keyframes →
      ∀ t ∈ path ++ [x] ++ [y], kind t ≠ .keyframes := by
    intro x y hx hy t ht
    simp only [List.mem_append, List.mem_singleton] at ht
    rcases ht with (ht | rfl) | rfl
    · exact hb t ht
    · exact hx
    · exact hy
  have hmk : kind m.1 ≠ .keyframes := by simp [hm]
  have hsk : kind s.1 ≠ .keyframes := by simp [hs]
  have hin : trail scope (path ++ [m.1] ++ [s.1]) inner =
      trail scope (path ++ [s.1] ++ [m.1]) inner :=
    trail_nested hn _ _ fun rest => pathKey_swap h path rest m.1 s.1 hm hs hb
  simp only [trail_append, List.foldl_append, foldl_behind, List.filterMap_append]
  rw [filterMap_twofold f hf hn path m s line₁ line₂ (hp m.1 s.1 hmk hsk),
    filterMap_twofold f hf hn path s m line₁ line₂ (hp s.1 m.1 hsk hmk), hin,
    (traced_twofold hn _ m s line₁ line₂).1, (traced_twofold hn _ s m line₁ line₂).1]

/-! ## Ledgers -/

/-- The declaration of a trail that is filed under a key. -/
def filedUnder (k : Key) : Statement × Key → Option Declaration
  | (.declaration d, l) => if l = k then some d else none
  | _ => none

theorem linesUnder_trail (ts : List Statement) (k : Key) :
    linesUnder scope ts k = (trail scope [] ts).filterMap (filedUnder k) := by
  have hd : located [] ts = (traced [] ts).filterMap declared := located_traced [] ts
  rw [linesUnder, hd, trail, List.filterMap_map, List.filter_filterMap, List.map_filterMap]
  refine List.filterMap_congr fun p _ => ?_
  obtain ⟨s, path⟩ := p
  cases s with
  | declaration d => by_cases hk : pathKey scope path = k <;> simp [filedUnder, hk]
  | _ => rfl

/-- The name of keyframes that have declarations. -/
def nameFiled (lines : Key → List Declaration) (k : Key) : Option Text :=
  if lines k = [] then none else keyframesName k.group

theorem names_ledger (h : IsClass scope) (ts : List Statement) :
    Animation.names (ledger scope ts).filled =
      ((trail scope [] ts).filterMap fun p => nameFiled (linesUnder scope ts) p.2).eraseDups := by
  have hk : keysAlong scope [] ts = (trail scope [] ts).map Prod.snd := by
    rw [keysAlong, trail, List.map_map]
    rfl
  have ho : nameFiled (linesUnder scope ts) (pathKey scope []) = none := by
    rw [nameFiled, keyframesName_outside h [] (by simp), ite_self]
  have hf : (ledger scope ts).filled.filterMap (fun r => keyframesName r.group) =
      (reached scope ts).filterMap (nameFiled (linesUnder scope ts)) := by
    rw [filled_ledger, List.filterMap_map, List.filterMap_filter]
    refine List.filterMap_congr fun k _ => ?_
    by_cases hl : linesUnder scope ts k = [] <;> simp [nameFiled, hl]
  rw [Animation.names, hf, reached_keysAlong, Repeats.eraseDups_filterMap,
    List.filterMap_cons_none ho, hk, List.filterMap_map]
  rfl

/-- Ledgers of statements in which a condition and a selector right within it have changed places
file the same declarations under each key and have the same keyframes. -/
theorem ledger_swap (h : IsClass scope) {inner : List Statement} (hn : WellNested inner)
    (before after : List Statement) (m s : Text × Int) (line₁ line₂ : Int)
    (hm : kind m.1 = .condition) (hs : kind s.1 = .selector)
    (hb : ∀ t ∈ openPreludes before, kind t ≠ .keyframes) :
    let ts := before ++ twofold m s inner line₁ line₂ ++ after
    let ts' := before ++ twofold s m inner line₁ line₂ ++ after
    linesUnder scope ts = linesUnder scope ts' ∧
      Animation.names (ledger scope ts).filled = Animation.names (ledger scope ts').filled := by
  intro ts ts'
  have hl : linesUnder scope ts = linesUnder scope ts' := by
    funext k
    rw [linesUnder_trail, linesUnder_trail]
    refine filterMap_trail_swap h _ (fun t path ht _ => ?_) hn before after m s _ _ hm hs hb
    cases t with
    | declaration d => exact absurd rfl (ht d)
    | _ => rfl
  refine ⟨hl, ?_⟩
  rw [names_ledger h, names_ledger h, ← hl]
  congr 1
  refine filterMap_trail_swap h _ (fun t path _ hp => ?_) hn before after m s _ _ hm hs hb
  show nameFiled _ (pathKey scope path) = none
  rw [nameFiled, keyframesName_outside h path hp, ite_self]

end Filing

namespace Book

/-! ## What is filed under a key -/

theorem lookup_graph (f : Key → Rule) (ks : List Key) (k : Key) :
    (ks.map fun l => (l, f l)).lookup k = if k ∈ ks then some (f k) else none := by
  induction ks with
  | nil => rfl
  | cons l ks ih =>
    rw [List.map_cons, List.lookup_cons, ih]
    by_cases hl : k = l
    · simp [hl]
    · simp [hl, beq_eq_false_iff_ne.mpr hl]

theorem lookup_map (f : Rule → Rule) (b : Book) (k : Key) :
    (b.map fun e => (e.1, f e.2)).lookup k = (b.lookup k).map f := by
  induction b with
  | nil => rfl
  | cons e b ih =>
    rw [List.map_cons, List.lookup_cons, ih, List.lookup_cons]
    cases k == e.1 <;> rfl

end Book

namespace Unnesting

open Filing Scan Containment Animation Prelude

theorem lookup_ledger (scope : Text) (ts : List Statement) (k : Key) :
    (ledger scope ts).filledEntries.lookup k = if linesUnder scope ts k = [] then none
      else some ⟨k.group, k.selector, linesUnder scope ts k⟩ := by
  rw [filledEntries_ledger, Book.lookup_graph]
  by_cases hl : linesUnder scope ts k = []
  · simp [hl]
  · have hm : k ∈ reached scope ts := by
      by_contra hn
      exact hl (lines_under_unreached scope ts k hn)
    simp [hl, hm]

theorem lookup_rename (f : Text → Text) (b : Book) (k : Key) :
    (rename f b).filledEntries.lookup k = (b.filledEntries.lookup k).map fun r =>
      if names b.filled = [] then r else renameRule (names b.filled) f r := by
  by_cases hn : names b.filled = []
  · simp [rename_of_names_nil f b hn, hn]
  · rw [rename_of_names f b hn, Book.filledEntries_mapFilled _ b fun r => by simp [renameRule],
      Book.lookup_map]
    simp only [if_neg hn]

/-- What naming keyframes after the scope leaves under the keys follows from what is there and from
the names. -/
theorem lookup_renamed {u v : Unnesting} (hs : u.scope = v.scope) (ht : u.settings = v.settings)
    (hn : names u.book.filled = names v.book.filled)
    (hl : ∀ k, u.book.filledEntries.lookup k = v.book.filledEntries.lookup k) (k : Key) :
    u.renamed.book.filledEntries.lookup k = v.renamed.book.filledEntries.lookup k := by
  have hf : u.namespaced = v.namespaced := by
    funext name
    rw [namespaced, namespaced, hs, ht]
  rw [renamed, renamed, ht]
  split
  · show (rename _ _).filledEntries.lookup k = (rename _ _).filledEntries.lookup k
    rw [lookup_rename, lookup_rename, hl, hn, hf]
  · exact hl k

/-- Conditions and selectors commute: if a condition and a selector right within it change places
outside keyframes, what is filed under the keys stays, whatever well-nested statements they are
around. This is so of the same statements and, but for the lines, of any source that comes to such
statements. -/
theorem conditions_and_selectors_commute {scope : Text} (h : IsClass scope) (settings : Settings)
    (source : Text) (before inner after : List Statement) (m s : Text × Int) (line₁ line₂ : Int)
    (hr : (readSource source).statements = before ++ twofold m s inner line₁ line₂ ++ after)
    (hm : kind m.1 = .condition) (hs : kind s.1 = .selector) (hn : WellNested inner)
    (hb : ∀ t ∈ openPreludes before, kind t ≠ .keyframes) :
    let u := start source scope settings
    let swapped := before ++ twofold s m inner line₁ line₂ ++ after
    (∀ k, (u.restart.takeAll swapped).renamed.book.filledEntries.lookup k =
      u.run.book.filledEntries.lookup k) ∧
    ∀ other, (readSource other).statements.map Statement.unplaced =
        swapped.map Statement.unplaced →
      ∀ k, ((start other scope settings).run.book.filledEntries.lookup k).map Rule.unplaced =
        (u.run.book.filledEntries.lookup k).map Rule.unplaced := by
  intro u swapped
  have hk : ∀ k, (u.restart.takeAll swapped).renamed.book.filledEntries.lookup k =
      u.run.book.filledEntries.lookup k := by
    have hg : u.gather.book = ledger scope (before ++ twofold m s inner line₁ line₂ ++ after) := by
      rw [(gather_book_by_path u).1, ← hr]
      rfl
    have hv : (u.restart.takeAll swapped).book = ledger scope swapped := (filed_run u _).book_eq
    obtain ⟨hl, hnames⟩ := ledger_swap h hn before after m s line₁ line₂ hm hs hb
    refine lookup_renamed ?_ ?_ ?_ fun k => ?_
    · exact (filed_run u _).scope_eq.trans (filed_run u _).scope_eq.symm
    · rw [settings_gather, settings_takeAll]
      rfl
    · rw [hv, hg, hnames]
    · rw [hv, hg, lookup_ledger, lookup_ledger, hl]
  refine ⟨hk, fun other ho k => ?_⟩
  have ha : Agrees (start other scope settings).restart u.restart := ⟨rfl, rfl, rfl, rfl, rfl⟩
  obtain ⟨h₁, h₂, h₃, h₄, h₅⟩ := agrees_takeAll ha _ _ ho
  have hg : Agrees (start other scope settings).gather (u.restart.takeAll swapped) :=
    ⟨h₁, h₂, h₃, h₄, h₅⟩
  have he : (start other scope settings).run.book.unplaced =
      (u.restart.takeAll swapped).renamed.book.unplaced := (agrees_renamed hg).book_eq
  rw [← hk, ← Book.lookup_map, ← Book.lookup_map, ← Book.filledEntries_unplaced,
    ← Book.filledEntries_unplaced, he]

theorem conditions_and_selectors_commute_of_cards :
    let source := ("@media print\x7b.a\x7btop:0;.s b\x7btop:1px;\x7d" ++
      "@keyframes x\x7bto\x7btop:2px;\x7d\x7d\x7d\x7d.c\x7banimation:x;\x7d").toList
    let other := (".a\x7b@media print\x7btop:0;.s b\x7btop:1px;\x7d" ++
      "@keyframes x\x7bto\x7btop:2px;\x7d\x7d\x7d\x7d.c\x7banimation:x;\x7d").toList
    let book (source : Text) := (start source ".s".toList Settings.standard).run.book.filledEntries
    (∀ k, ((book other).lookup k).map Rule.unplaced = ((book source).lookup k).map Rule.unplaced) ∧
      (book source).keys = [⟨"@media print".toList, ".s .a".toList⟩,
        ⟨"@media print".toList, ".s .a .s b".toList⟩, ⟨"@keyframes x".toList, "to".toList⟩,
        ⟨[], ".s .c".toList⟩] := by
  intro source other book
  let inner : List Statement := [.declaration ⟨"top:0;".toList, 1⟩, .opening ".s b".toList 1,
    .declaration ⟨"top:1px;".toList, 1⟩, .closing 1, .opening "@keyframes x".toList 1,
    .opening "to".toList 1, .declaration ⟨"top:2px;".toList, 1⟩, .closing 1, .closing 1]
  let after : List Statement :=
    [.opening ".c".toList 1, .declaration ⟨"animation:x;".toList, 1⟩, .closing 1]
  have hd : ∀ d path, behind path (.declaration d) = path := fun _ _ => rfl
  have hto : WellNested [.opening "to".toList 1, .declaration ⟨"top:2px;".toList, 1⟩,
      .closing 1] :=
    .block _ _ _ [.declaration ⟨"top:2px;".toList, 1⟩] [] (.flat _ _ (hd _) .nil) .nil
  have hn : WellNested inner := .flat _ _ (hd _)
    (.block _ _ _ [.declaration ⟨"top:1px;".toList, 1⟩] _ (.flat _ _ (hd _) .nil)
      (.block _ _ _ [.opening "to".toList 1, .declaration ⟨"top:2px;".toList, 1⟩, .closing 1] []
        hto .nil))
  have h := conditions_and_selectors_commute ⟨'s', [], rfl, by decide⟩ Settings.standard source []
    inner after ("@media print".toList, 1) (".a".toList, 1) 1 1 (by decide +kernel) (by decide)
    (by decide) hn (by simp [openPreludes, lookBack])
  exact ⟨h.2 other (by decide +kernel), by decide +kernel⟩

end Unnesting

end NestedCss
