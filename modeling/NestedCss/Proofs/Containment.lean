import NestedCss.Proofs.Closing
import NestedCss.Proofs.Filing
import NestedCss.Proofs.Headers

/-!
# Containment

No rule leaves the scope as long as the lists of selectors are cut where the reading of the source
ends its strings. A source that is read without a fault closes all strings and brackets before each
brace, and anchoring a prelude changes nothing of that. So each list that is attached is made of
pieces that stay apart, and the scope stands in every one of them. A string with an escaped quote
is enough to break it: the cut takes the escaped quote for the end of the string.
-/

set_option autoImplicit false

namespace NestedCss.Text

/-- Whether no character is in both sets. -/
def Ranges.apart (rs ss : Ranges) : Bool := rs.all fun r => ss.all fun s => r.2 < s.1 || s.2 < r.1

theorem Ranges.holds_apart (rs ss : Ranges) (c : Char) (h : rs.apart ss = true)
    (hr : rs.holds c = true) : ss.holds c = false := by
  obtain ⟨r, hrm, hrc⟩ := (Ranges.holds_iff rs c).mp hr
  rw [← Bool.not_eq_true]
  intro hs
  obtain ⟨s, hsm, hsc⟩ := (Ranges.holds_iff ss c).mp hs
  have ha := List.all_eq_true.mp (List.all_eq_true.mp h r hrm) s hsm
  simp only [Bool.or_eq_true, decide_eq_true_eq] at ha
  omega

theorem isBlank_word (c : Char) (h : isWord c = true) : isBlank c = false := by
  by_cases hc : c.toNat < 128
  · have ha : ∀ n < 128, isWord (Char.ofNat n) = true → isBlank (Char.ofNat n) = false := by
      decide +kernel
    have hw := ha c.toNat hc
    rw [Char.ofNat_toNat] at hw
    exact hw h
  · rw [isWord, if_neg hc] at h
    exact Ranges.holds_apart alphanumeric blanks c (by decide +kernel) h

theorem unheeded_word (c : Char) (h : isWord c = true) : c ∉ Path.Watch.heeded := by
  intro hc
  rcases Path.Watch.eq_of_mem_heeded c hc with rfl | rfl | rfl | rfl | rfl | rfl | rfl | rfl <;>
    exact absurd h (by decide)

end NestedCss.Text

namespace NestedCss.Scope
open NestedCss.Path

theorem steps_joined (f : Text → Text) (es : List Text) (w : Watch) (hw : w.Sane)
    (hf : ∀ v : Watch, v.Sane → ∀ e, v.steps (f e) = v.steps e) :
    w.steps (joined (es.map f)) = w.steps (joined es) := by
  induction es generalizing w with
  | nil => rfl
  | cons e es ih =>
    cases es with
    | nil => simpa [joined, Text.join] using hf w hw e
    | cons g es =>
      have hs := Watch.sane_step _ ',' (Watch.sane_steps w e hw)
      have hi := ih ((w.steps e).step ',') hs
      rw [List.map_cons, List.map_cons, Watch.joined_cons, Watch.joined_cons, Watch.steps_append,
        Watch.steps_append, hf w hw e]
      exact hi

theorem after?_eq (scope t r : Text) (h : after? scope t = some r) : t = scope ++ r := by
  simp only [after?] at h
  split at h
  · next hp =>
    obtain rfl := Option.some.inj h
    rw [Bool.and_eq_true, List.isPrefixOf_iff_prefix] at hp
    exact (List.prefix_iff_eq_append.mp hp.1).symm
  · simp at h

/-- A watch heeds the scope as little as the mark that is put for it. -/
theorem steps_anchorEntry (scope : Text) (hn : scope ≠ []) (hs : ∀ c ∈ scope, c ∉ Watch.heeded)
    (w : Watch) (hw : w.Sane) (e : Text) : w.steps (anchorEntry scope e) = w.steps e := by
  rw [anchorEntry]
  split
  · next r h =>
    obtain ⟨c, t, rfl⟩ := List.exists_cons_of_ne_nil hn
    have hc := Watch.step_unheeded w c hw (hs c (by simp))
    have ha := Watch.step_unheeded w '&' hw (by decide)
    rw [after?_eq _ e r h, Watch.steps_append, Watch.steps_unheeded w c t hw hs, hc, ← ha]
    rfl
  · rfl

theorem steps_anchor (scope t : Text) (stack : List Text) (hn : scope ≠ [])
    (hs : ∀ c ∈ scope, c ∉ Watch.heeded) :
    Watch.start.steps (anchor scope stack t) = Watch.start.steps t := by
  rw [anchor]
  split
  · rfl
  · have hj := steps_joined (anchorEntry scope) (entries t) Watch.start Watch.sane_start
      (steps_anchorEntry scope hn hs)
    rw [anchorList, hj, entries, joined_cut]

end NestedCss.Scope

namespace NestedCss.Filing
open NestedCss.Scan

theorem mem_lookBack (hidden : Nat) (ts : List Statement) (t : Text) (h : t ∈ lookBack hidden ts) :
    ∃ line, .opening t line ∈ ts := by
  fun_induction lookBack hidden ts with
  | case1 => simp at h
  | case2 hidden line r ih =>
    obtain ⟨l, hl⟩ := ih h
    exact ⟨l, List.mem_cons_of_mem _ hl⟩
  | case3 s line r ih =>
    rcases List.mem_append.mp h with hm | hm
    · obtain ⟨l, hl⟩ := ih hm
      exact ⟨l, List.mem_cons_of_mem _ hl⟩
    · rw [List.mem_singleton.mp hm]
      exact ⟨line, List.mem_cons_self⟩
  | case4 hidden s line r ih =>
    obtain ⟨l, hl⟩ := ih h
    exact ⟨l, List.mem_cons_of_mem _ hl⟩
  | case5 hidden s r _ _ _ ih =>
    obtain ⟨l, hl⟩ := ih h
    exact ⟨l, List.mem_cons_of_mem _ hl⟩

/-- The preludes of a path are those of openings. -/
theorem mem_path (ts : List Statement) (p : Declaration × List Text) (t : Text)
    (hp : p ∈ located [] ts) (ht : t ∈ p.2) : ∃ line, .opening t line ∈ ts := by
  obtain ⟨us, hu, he⟩ := mem_located [] ts p hp
  rw [he] at ht
  obtain ⟨line, hl⟩ := mem_lookBack 0 _ t ht
  exact ⟨line, hu.mem (List.mem_reverse.mp hl)⟩

theorem pathStack_head (scope : Text) (ps : List Text) :
    pathStack scope ps = scope :: (pathStack scope ps).tail := by
  induction ps using List.reverseRecOn with
  | nil => rfl
  | append_singleton ps t ih =>
    rw [path_stack_concat, ih]
    rfl

/-- What holds of all preludes of a path and is kept by anchoring holds of all that is put on the
scope. -/
theorem forall_stack (scope : Text) (P : Text → Prop) (ps : List Text)
    (hP : ∀ stack t, P t → P (Scope.anchor scope stack t)) (hp : ∀ t ∈ ps, P t) :
    ∀ t ∈ (pathStack scope ps).tail, P t := by
  induction ps using List.reverseRecOn with
  | nil => simp [pathStack]
  | append_singleton ps s ih =>
    intro t ht
    rw [path_stack_concat, pathStack_head, List.cons_append, List.tail_cons, ← pathStack_head,
      List.mem_append] at ht
    rcases ht with ht | ht
    · exact ih (fun a ha => hp a (by simp [ha])) t ht
    · rw [List.mem_singleton.mp ht]
      exact hP _ s (hp s (by simp))

/-- A rule with declarations is that of the path of one of them. -/
theorem mem_filled_ledger (scope : Text) (ts : List Statement) (r : Rule)
    (h : r ∈ (ledger scope ts).filled) : ∃ p ∈ located [] ts,
      pathKey scope p.2 = ⟨r.group, r.selector⟩ := by
  simp only [Book.filled, Book.rules, ledger, List.map_map, List.mem_filter, List.mem_map,
    Function.comp_apply] at h
  obtain ⟨⟨k, -, rfl⟩, hl⟩ := h
  have hn : linesUnder scope ts k ≠ [] := by simpa using hl
  obtain ⟨d, hd⟩ := List.exists_mem_of_ne_nil _ hn
  simp only [linesUnder, List.mem_map, List.mem_filter, decide_eq_true_eq] at hd
  obtain ⟨p, ⟨hp, hk⟩, -⟩ := hd
  exact ⟨p, hp, hk⟩

/-- The declarations of a rule are among the statements. -/
theorem mem_lines_ledger (scope : Text) (ts : List Statement) (r : Rule) (d : Declaration)
    (h : r ∈ (ledger scope ts).rules) (hd : d ∈ r.lines) : .declaration d ∈ ts := by
  simp only [Book.rules, ledger, List.map_map, List.mem_map, Function.comp_apply] at h
  obtain ⟨k, -, rfl⟩ := h
  obtain ⟨p, hp, rfl⟩ := List.mem_map.mp hd
  exact mem_located_declaration [] ts p (List.mem_of_mem_filter hp)

/-- The path of each declaration has a rule with declarations. -/
theorem exists_filled_ledger (scope : Text) (ts : List Statement) (p : Declaration × List Text)
    (h : p ∈ located [] ts) : ∃ r ∈ (ledger scope ts).filled,
      pathKey scope p.2 = ⟨r.group, r.selector⟩ ∧ p.1 ∈ r.lines := by
  have hl : p.1 ∈ linesUnder scope ts (pathKey scope p.2) :=
    List.mem_map_of_mem (List.mem_filter.mpr ⟨h, by simp⟩)
  refine ⟨⟨_, _, linesUnder scope ts (pathKey scope p.2)⟩, List.mem_filter.mpr ⟨?_, ?_⟩, rfl, hl⟩
  · simp only [Book.rules, ledger, List.map_map, List.mem_map, Function.comp_apply]
    exact ⟨_, located_key_reached scope ts p h, rfl⟩
  · simpa using List.ne_nil_of_mem hl

end NestedCss.Filing

namespace NestedCss.Containment
open NestedCss.Scan NestedCss.Filing NestedCss.Path

/-- The lists of selectors on a path, as they go onto the stack above the scope. -/
def lists (scope : Text) (preludes : List Text) : List Text :=
  ofKind .selector (pathStack scope preludes).tail

/-- Whether outside keyframes each path of a declaration is put together in shelter: paths and
segments are cut as a string ends in the source, and what is put for an `&` within a string or
brackets neither closes nor opens any. -/
def Sheltered (scope : Text) (ts : List Statement) : Prop :=
  ∀ p ∈ located [] ts, Prelude.kind (pathKey scope p.2).group ≠ .keyframes →
    sheltered scope (lists scope p.2) = true

instance (scope : Text) (ts : List Statement) : Decidable (Sheltered scope ts) :=
  inferInstanceAs (Decidable (∀ p ∈ located [] ts, _ → _))

/-- A class: a dot and a name of word characters. -/
def IsClass (scope : Text) : Prop :=
  ∃ a w, scope = '.' :: a :: w ∧ ∀ c ∈ a :: w, Text.isWord c = true

variable {scope : Text}

theorem blank_class (h : IsClass scope) : ∀ c ∈ scope, Text.isBlank c = false := by
  obtain ⟨a, w, rfl, hw⟩ := h
  intro c hc
  rcases List.mem_cons.mp hc with rfl | hc
  · decide
  · exact Text.isBlank_word c (hw c hc)

theorem unheeded_class (h : IsClass scope) : ∀ c ∈ scope, c ∉ Watch.heeded := by
  obtain ⟨a, w, rfl, hw⟩ := h
  intro c hc
  rcases List.mem_cons.mp hc with rfl | hc
  · decide
  · exact Text.unheeded_word c (hw c hc)

theorem ne_nil_class (h : IsClass scope) : scope ≠ [] := by
  obtain ⟨a, w, rfl, -⟩ := h
  simp

theorem kind_class (h : IsClass scope) : Prelude.kind scope = .selector := by
  obtain ⟨a, w, rfl, -⟩ := h
  rfl

theorem inside_class (h : IsClass scope) : Inside scope scope := by
  have hk := Watch.keeps_unheeded Watch.start scope rfl (unheeded_class h)
  have hc := Watch.cut_uncut Watch.start scope hk.1
  constructor
  · intro p hp
    rw [hc, List.mem_singleton] at hp
    rwa [hp]
  · intro p hp
    rw [hc, List.mem_singleton] at hp
    rw [hp]

theorem selectors_pathStack (h : IsClass scope) (ps : List Text) :
    ofKind .selector (pathStack scope ps) = scope :: lists scope ps := by
  rw [pathStack_head, ofKind, List.filter_cons, kind_class h]
  rfl

theorem selector_eq (h : IsClass scope) (ps : List Text)
    (hk : Prelude.kind (pathKey scope ps).group ≠ .keyframes) :
    (pathKey scope ps).selector = (lists scope ps).foldl attachList scope := by
  rw [pathKey, Key.ofStack] at hk ⊢
  split at hk
  · next header above hi => exact absurd (innermost_keyframes_some _ above header hi).1 hk
  · next hi => rw [selectors_pathStack h]; rfl

theorem filled_renamed (h : IsClass scope) (u : Unnesting) (hu : u.scope = scope) (r : Rule)
    (hr : r ∈ u.renamed.book.filled) : ∃ s ∈ u.book.filled, r.selector = s.selector ∧
      (Prelude.kind s.group = .keyframes → Prelude.kind r.group = .keyframes) := by
  rw [Unnesting.renamed] at hr
  split at hr
  · apply Animation.filled_rename u.namespaced u.book r _ hr
    intro name
    obtain ⟨a, w, rfl, hw⟩ := h
    have ha : a ≠ '{' := by
      rintro rfl
      exact absurd (hw '{' (by simp)) (by decide)
    refine ⟨a, w ++ u.settings.separator ++ name, ?_, ?_⟩
    · rw [Unnesting.namespaced, hu]
      rfl
    · simp [Prelude.endsName, Text.isBlank_word a (hw a (by simp)), ha]
  · exact ⟨r, hr, rfl, id⟩

/-- No rule of a source that is read without a fault leaves a class that it is put under, unless a
list of selectors on its path is cut in other places than its strings end. -/
theorem every_piece_holds_scope (source : Text) (settings : Settings) (h : IsClass scope)
    (hf : (readSource source).faults = [])
    (hs : Sheltered scope (readSource source).statements) :
    ∀ r ∈ (Unnesting.start source scope settings).run.book.filled,
      Prelude.kind r.group ≠ .keyframes →
      ∀ piece ∈ Watch.start.cut r.selector, scope <:+: piece := by
  intro r hr hk
  have hb : (Unnesting.start source scope settings).gather.book =
      ledger scope (readSource source).statements := (filed_run _ _).book_eq
  have hu : (Unnesting.start source scope settings).gather.scope = scope := (filed_run _ _).scope_eq
  obtain ⟨s, hsm, hsel, hkey⟩ := filled_renamed h _ hu r hr
  rw [hb] at hsm
  obtain ⟨p, hp, hpk⟩ := mem_filled_ledger scope _ s hsm
  have hg : Prelude.kind (pathKey scope p.2).group ≠ .keyframes := by
    rw [hpk]
    exact fun hc => hk (hkey hc)
  have hc : ∀ t ∈ lists scope p.2, Watch.start.steps t = Watch.start := by
    intro t ht
    apply forall_stack scope (fun a => Watch.start.steps a = Watch.start) p.2 _ _ t
      (List.mem_of_mem_filter ht)
    · intro stack a ha
      rwa [Scope.steps_anchor scope a stack (ne_nil_class h) (unheeded_class h)]
    · intro a ha
      obtain ⟨line, hl⟩ := mem_path _ p a hp ha
      exact opening_closed source a line hf hl
  have hi := inside_foldl scope scope (lists scope p.2) (blank_class h) (ne_nil_class h)
    (inside_class h) hc (hs p hp hg)
  rw [← selector_eq h p.2 hg, hpk] at hi
  rw [hsel]
  exact hi.holds

/-- An escaped quote in an attribute lets the second of two selectors out of the scope. -/
theorem escaped_quote_leaves_scope :
    (readSource ".a[x=\"\\\"\"],.b\x7bcolor:red;\x7d".toList).faults = [] ∧
      ∃ r ∈ (Unnesting.start ".a[x=\"\\\"\"],.b\x7bcolor:red;\x7d".toList ".s".toList
        Settings.standard).run.book.filled, Prelude.kind r.group ≠ .keyframes ∧
        ∃ piece ∈ Watch.start.cut r.selector, ¬ ".s".toList <:+: piece := by
  decide +kernel

theorem every_piece_holds_scope_of_titles :
    Sheltered ".s".toList (readSource
      ".a[x=\"it\\'s,\"],.b\x7b&:not(.c,.d),.e\x7bcolor:red;\x7d\x7d".toList).statements ∧
    ∀ r ∈ (Unnesting.start
      ".a[x=\"it\\'s,\"],.b\x7b&:not(.c,.d),.e\x7bcolor:red;\x7d\x7d".toList
      ".s".toList Settings.standard).run.book.filled, Prelude.kind r.group ≠ .keyframes →
      ∀ piece ∈ Watch.start.cut r.selector, ".s".toList <:+: piece := by
  let source := ".a[x=\"it\\'s,\"],.b\x7b&:not(.c,.d),.e\x7bcolor:red;\x7d\x7d".toList
  obtain ⟨hs, hf⟩ : Sheltered ".s".toList (readSource source).statements ∧
      (readSource source).faults = [] := by
    decide +kernel
  have hc : IsClass ".s".toList := ⟨'s', [], rfl, by simp only [List.forall_mem_singleton]; decide⟩
  exact ⟨hs, every_piece_holds_scope source Settings.standard hc hf hs⟩

end NestedCss.Containment
