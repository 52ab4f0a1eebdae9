import Mathlib.Data.List.DropRight
import Mathlib.Data.List.Infix
import NestedCss.Unnesting

/-!
# Filing

The nesting of braces alone says where a declaration belongs: looking back from it, each closing
brace hides the block it closes, and the preludes that stay in sight are its path. The ledger of
some statements lists the keys of the paths in the order in which they come up, each with its
declarations. A run over the statements keeps a stack and a current key instead of looking back,
and its book is the ledger.
-/

set_option autoImplicit false

namespace NestedCss.Filing
open NestedCss.Scan

/-- The preludes in sight from behind some statements, given the latest first. So many of the
blocks are `hidden` by braces that closed them. -/
def lookBack : Nat → List Statement → List Text
  | _, [] => []
  | hidden, .closing _ :: r => lookBack (hidden + 1) r
  | 0, .opening t _ :: r => lookBack 0 r ++ [t]
  | hidden + 1, .opening _ _ :: r => lookBack hidden r
  | hidden, _ :: r => lookBack hidden r

/-- The preludes of the blocks that are open behind some statements, the outermost first. -/
def openPreludes (before : List Statement) : List Text := lookBack 0 before.reverse

/-- The stack of a path: the scope, and on it each prelude anchored to what lies below. -/
def pathStack (scope : Text) (preludes : List Text) : List Text :=
  preludes.foldl (fun stack t => stack ++ [Scope.anchor scope stack t]) [scope]

def pathKey (scope : Text) (preludes : List Text) : Key := Key.ofStack (pathStack scope preludes)

/-- The key of the place behind some statements. -/
def keyAfter (scope : Text) (before : List Statement) : Key := pathKey scope (openPreludes before)

/-- The declarations among some statements, each with the preludes of its path. -/
def located (before : List Statement) : List Statement → List (Declaration × List Text)
  | [] => []
  | .declaration d :: r =>
    (d, openPreludes before) :: located (before ++ [.declaration d]) r
  | s :: r => located (before ++ [s]) r

/-- The keys in the order in which they are first reached, that of the scope in front. -/
def reached (scope : Text) (ts : List Statement) : List Key :=
  (ts.inits.map (keyAfter scope)).eraseDups

def linesUnder (scope : Text) (ts : List Statement) (k : Key) : List Declaration :=
  ((located [] ts).filter fun p => pathKey scope p.2 = k).map Prod.fst

def ledger (scope : Text) (ts : List Statement) : Book :=
  (reached scope ts).map fun k => (k, ⟨k.group, k.selector, linesUnder scope ts k⟩)

/-- What a stack stands for: the innermost keyframes header with all that is composed above it,
or, where there is none, the conditions joined and the selectors composed. -/
inductive Resolves : List Text → Key → Prop where
  | keyframes (below above : List Text) (header : Text)
      (hh : Prelude.kind header = .keyframes) (ha : ∀ t ∈ above, Prelude.kind t ≠ .keyframes) :
      Resolves (below ++ header :: above) ⟨header, Path.compose above⟩
  | plain (stack : List Text) (hs : ∀ t ∈ stack, Prelude.kind t ≠ .keyframes) :
      Resolves stack
        ⟨Condition.conjoin (ofKind .condition stack), Path.compose (ofKind .selector stack)⟩

theorem innermost_keyframes_none (stack : List Text) (h : innermostKeyframes stack = none) :
    ∀ t ∈ stack, Prelude.kind t ≠ .keyframes := by
  induction stack with
  | nil => simp
  | cons t ts ih =>
    rw [innermostKeyframes] at h
    split at h
    · simp at h
    · next hn =>
      split at h
      · simp at h
      · next hk => simpa [hk] using ih hn

theorem innermost_keyframes_some (stack above : List Text) (header : Text)
    (h : innermostKeyframes stack = some (header, above)) :
    Prelude.kind header = .keyframes ∧ (∀ t ∈ above, Prelude.kind t ≠ .keyframes) ∧
      ∃ below, stack = below ++ header :: above := by
  induction stack with
  | nil => simp [innermostKeyframes] at h
  | cons t ts ih =>
    rw [innermostKeyframes] at h
    split at h
    · next found hf =>
      obtain ⟨hk, ha, below, hb⟩ := ih (hf.trans h)
      exact ⟨hk, ha, t :: below, by rw [hb, List.cons_append]⟩
    · next hn =>
      split at h
      · next hk =>
        obtain ⟨rfl, rfl⟩ := Prod.mk.inj (Option.some.inj h)
        exact ⟨hk, innermost_keyframes_none _ hn, [], rfl⟩
      · simp at h

theorem resolves_of_stack (stack : List Text) : Resolves stack (Key.ofStack stack) := by
  rw [Key.ofStack]
  split
  · next header above h =>
    obtain ⟨hk, ha, below, rfl⟩ := innermost_keyframes_some stack above header h
    exact .keyframes below above header hk ha
  · next h => exact .plain stack (innermost_keyframes_none stack h)

theorem look_back_rdrop (hidden : Nat) (ts : List Statement) :
    lookBack hidden ts = (lookBack 0 ts).rdrop hidden := by
  induction ts generalizing hidden with
  | nil => simp [lookBack]
  | cons s r ih =>
    cases s with
    | opening t line =>
      cases hidden with
      | zero => simp
      | succ n =>
        rw [lookBack, lookBack, List.rdrop_concat_succ]
        exact ih n
    | closing line =>
      simp only [lookBack]
      rw [ih, ih 1]
      simp only [List.rdrop_eq_reverse_drop_reverse, List.reverse_reverse, List.drop_drop]
      rw [Nat.add_comm]
    | declaration d => simpa [lookBack] using ih hidden
    | ending t line => simpa [lookBack] using ih hidden
    | bare t line => simpa [lookBack] using ih hidden

theorem open_preludes_opening (ts : List Statement) (t : Text) (line : Int) :
    openPreludes (ts ++ [.opening t line]) = openPreludes ts ++ [t] := by
  simp [openPreludes, lookBack]

theorem open_preludes_closing (ts : List Statement) (line : Int) :
    openPreludes (ts ++ [.closing line]) = (openPreludes ts).dropLast := by
  have h := look_back_rdrop 1 ts.reverse
  simpa [openPreludes, lookBack, List.rdrop, List.dropLast_eq_take] using h

theorem path_stack_concat (scope t : Text) (ps : List Text) :
    pathStack scope (ps ++ [t]) =
      pathStack scope ps ++ [Scope.anchor scope (pathStack scope ps) t] := by
  simp [pathStack]

theorem path_stack_length (scope : Text) (ps : List Text) :
    (pathStack scope ps).length = ps.length + 1 := by
  induction ps using List.reverseRecOn with
  | nil => rfl
  | append_singleton ps t ih => simp [path_stack_concat, ih]

theorem path_stack_dropLast (scope : Text) (ps : List Text) (h : ps ≠ []) :
    pathStack scope ps.dropLast = (pathStack scope ps).dropLast := by
  obtain ⟨qs, t, rfl⟩ := List.eq_nil_or_concat ps |>.resolve_left h
  simp [path_stack_concat]

theorem inits_concat (ts : List Statement) (s : Statement) :
    (ts ++ [s]).inits = ts.inits ++ [ts ++ [s]] := by
  simp [List.inits_append]

theorem key_mem_reached (scope : Text) (ts : List Statement) :
    keyAfter scope ts ∈ reached scope ts := by
  simp only [reached, List.mem_eraseDups, List.mem_map]
  exact ⟨ts, (List.mem_inits _ _).mpr (List.prefix_refl ts), rfl⟩

theorem reached_concat (scope : Text) (ts : List Statement) (s : Statement) :
    reached scope (ts ++ [s]) =
      if keyAfter scope (ts ++ [s]) ∈ reached scope ts then reached scope ts
      else reached scope ts ++ [keyAfter scope (ts ++ [s])] := by
  have hc : reached scope (ts ++ [s]) = reached scope ts ++
      ([keyAfter scope (ts ++ [s])].removeAll (ts.inits.map (keyAfter scope))).eraseDups := by
    simp only [reached, inits_concat, List.map_append, List.map_cons, List.map_nil,
      List.eraseDups_append]
  have hm : keyAfter scope (ts ++ [s]) ∈ reached scope ts ↔
      keyAfter scope (ts ++ [s]) ∈ ts.inits.map (keyAfter scope) := List.mem_eraseDups
  rw [hc]
  split
  · next h => simp [List.removeAll, hm.mp h]
  · next h =>
    have hn := mt hm.mpr h
    simp [List.removeAll, hn, List.eraseDups_cons]

theorem located_append (before ts us : List Statement) :
    located before (ts ++ us) = located before ts ++ located (before ++ ts) us := by
  induction ts generalizing before with
  | nil => simp [located]
  | cons s r ih => cases s <;> simp [located, ih]

theorem located_concat_declaration (ts : List Statement) (d : Declaration) :
    located [] (ts ++ [.declaration d]) = located [] ts ++ [(d, openPreludes ts)] := by
  simp [located_append, located]

theorem located_concat_other (ts : List Statement) (s : Statement)
    (h : ∀ d, s ≠ .declaration d) : located [] (ts ++ [s]) = located [] ts := by
  rw [located_append]
  cases s with
  | declaration d => exact absurd rfl (h d)
  | _ => simp [located]

/-- The path of a declaration is that of some place among the statements. -/
theorem mem_located (before ts : List Statement) (p : Declaration × List Text)
    (h : p ∈ located before ts) : ∃ us, us <+: ts ∧ p.2 = openPreludes (before ++ us) := by
  induction ts generalizing before with
  | nil => simp [located] at h
  | cons s r ih =>
    have later : p ∈ located (before ++ [s]) r →
        ∃ us, us <+: s :: r ∧ p.2 = openPreludes (before ++ us) := by
      intro hr
      obtain ⟨us, hu, he⟩ := ih _ hr
      exact ⟨s :: us, List.cons_prefix_cons.mpr ⟨rfl, hu⟩, by simpa using he⟩
    cases s with
    | declaration d =>
      rcases List.mem_cons.mp h with rfl | hr
      · exact ⟨[], List.nil_prefix, by simp⟩
      · exact later hr
    | _ => exact later h

theorem mem_located_declaration (before ts : List Statement) (p : Declaration × List Text)
    (h : p ∈ located before ts) : .declaration p.1 ∈ ts := by
  induction ts generalizing before with
  | nil => simp [located] at h
  | cons s ts ih =>
    cases s with
    | declaration d =>
      rcases List.mem_cons.mp h with rfl | h
      · simp
      · exact List.mem_cons_of_mem _ (ih _ h)
    | _ => exact List.mem_cons_of_mem _ (ih _ h)

theorem located_key_reached (scope : Text) (ts : List Statement) (p : Declaration × List Text)
    (h : p ∈ located [] ts) : pathKey scope p.2 ∈ reached scope ts := by
  obtain ⟨us, hu, he⟩ := mem_located [] ts p h
  simp only [reached, List.mem_eraseDups, List.mem_map]
  exact ⟨us, (List.mem_inits _ _).mpr hu, by rw [he]; rfl⟩

theorem lines_under_unreached (scope : Text) (ts : List Statement) (k : Key)
    (h : k ∉ reached scope ts) : linesUnder scope ts k = [] := by
  simp only [linesUnder, List.map_eq_nil_iff, List.filter_eq_nil_iff, decide_eq_true_eq]
  intro p hp he
  exact h (he ▸ located_key_reached scope ts p hp)

theorem lines_under_concat (scope : Text) (ts : List Statement) (d : Declaration) (k : Key) :
    linesUnder scope (ts ++ [.declaration d]) k =
      linesUnder scope ts k ++ if k = keyAfter scope ts then [d] else [] := by
  simp only [linesUnder, located_concat_declaration, List.filter_append, List.map_append]
  congr 1
  by_cases h : k = keyAfter scope ts
  · simp [h, keyAfter]
  · have hne : pathKey scope (openPreludes ts) ≠ k := fun he => h he.symm
    simp [h, hne]

theorem keys_ledger (scope : Text) (ts : List Statement) :
    (ledger scope ts).keys = reached scope ts := by
  simp [ledger, Book.keys, Function.comp_def]

/-- A statement that is no declaration adds at most the key that it leads to. -/
theorem ledger_concat_other (scope : Text) (ts : List Statement) (s : Statement)
    (h : ∀ d, s ≠ .declaration d) :
    ledger scope (ts ++ [s]) = (ledger scope ts).reach (keyAfter scope (ts ++ [s])) := by
  have hl : linesUnder scope (ts ++ [s]) = linesUnder scope ts := by
    funext k
    simp only [linesUnder, located_concat_other ts s h]
  simp only [Book.reach, keys_ledger, List.contains_iff_mem]
  simp only [ledger, reached_concat, hl]
  split
  · rfl
  · next hk => simp [Rule.ofKey, lines_under_unreached scope ts _ hk]

theorem ledger_concat_declaration (scope : Text) (ts : List Statement) (d : Declaration) :
    ledger scope (ts ++ [.declaration d]) = (ledger scope ts).file (keyAfter scope ts) d := by
  have ho : openPreludes (ts ++ [Statement.declaration d]) = openPreludes ts := by
    simp [openPreludes, lookBack]
  have hk : keyAfter scope (ts ++ [Statement.declaration d]) = keyAfter scope ts := by
    simp only [keyAfter, ho]
  have hr : reached scope (ts ++ [Statement.declaration d]) = reached scope ts := by
    rw [reached_concat, hk, if_pos (key_mem_reached scope ts)]
  simp only [ledger, hr, Book.file, List.map_map]
  apply List.map_congr_left
  intro k _
  rw [lines_under_concat]
  by_cases he : k = keyAfter scope ts <;> simp [he, Rule.add]

/-- The state of a run that has taken the statements from the scope on. -/
structure Filed (scope : Text) (ts : List Statement) (u : Unnesting) : Prop where
  scope_eq : u.scope = scope
  stack_eq : u.stack = pathStack scope (openPreludes ts)
  current_eq : u.current = some (keyAfter scope ts)
  book_eq : u.book = ledger scope ts

theorem filed_restart (u : Unnesting) : Filed u.scope [] u.restart where
  scope_eq := rfl
  stack_eq := rfl
  current_eq := rfl
  book_eq := rfl

theorem filed_settle (scope : Text) (ts : List Statement) (s : Statement) (u : Unnesting)
    (hu : Filed scope ts u) (hs : ∀ d, s ≠ .declaration d) :
    Filed scope (ts ++ [s]) (u.settle (pathStack scope (openPreludes (ts ++ [s])))) where
  scope_eq := hu.scope_eq
  stack_eq := rfl
  current_eq := rfl
  book_eq := by
    rw [ledger_concat_other scope ts s hs, ← hu.book_eq]
    rfl

theorem filed_enter (scope : Text) (ts : List Statement) (t : Text) (line : Int)
    (u : Unnesting) (hu : Filed scope ts u) :
    Filed scope (ts ++ [.opening t line]) (u.enter t) := by
  have hs : u.stack ++ [u.anchored t] =
      pathStack scope (openPreludes (ts ++ [.opening t line])) := by
    have hne : u.stack.isEmpty = false := by
      have := path_stack_length scope (openPreludes ts)
      rw [hu.stack_eq, List.isEmpty_eq_false_iff, ← List.length_pos_iff]
      omega
    rw [open_preludes_opening, path_stack_concat, Unnesting.anchored, hne, hu.scope_eq,
      hu.stack_eq]
    rfl
  rw [Unnesting.enter, hs]
  exact filed_settle scope ts _ u hu (by simp)

/-- Taking a statement that leads nowhere else. -/
theorem filed_idle (scope : Text) (ts : List Statement) (s : Statement) (u : Unnesting)
    (hu : Filed scope ts u) (hs : ∀ d, s ≠ .declaration d)
    (ho : openPreludes (ts ++ [s]) = openPreludes ts) : Filed scope (ts ++ [s]) u := by
  have hk : keyAfter scope (ts ++ [s]) = keyAfter scope ts := by simp only [keyAfter, ho]
  refine ⟨hu.scope_eq, by rw [ho]; exact hu.stack_eq, by rw [hk]; exact hu.current_eq, ?_⟩
  rw [ledger_concat_other scope ts s hs, hk, Book.reach, if_pos]
  · exact hu.book_eq
  · simpa [keys_ledger] using key_mem_reached scope ts

theorem filed_leave (scope : Text) (ts : List Statement) (line : Int) (u : Unnesting)
    (hu : Filed scope ts u) : Filed scope (ts ++ [.closing line]) (u.leave (some line)) := by
  by_cases hp : openPreludes ts = []
  · -- The scope stays, and so does its key: only a fault is added.
    have hn : u.stack.length ≤ 1 := by rw [hu.stack_eq, hp, path_stack_length]; simp
    have ho : openPreludes (ts ++ [Statement.closing line]) = openPreludes ts := by
      rw [open_preludes_closing, hp]; rfl
    obtain ⟨h₁, h₂, h₃, h₄⟩ := filed_idle scope ts (.closing line) u hu (by simp) ho
    rw [Unnesting.leave, if_pos hn]
    exact ⟨h₁, h₂, h₃, h₄⟩
  · have hn : ¬ u.stack.length ≤ 1 := by
      have := List.length_pos_iff.mpr hp
      rw [hu.stack_eq, path_stack_length]
      omega
    have hs : u.stack.dropLast =
        pathStack scope (openPreludes (ts ++ [Statement.closing line])) := by
      rw [open_preludes_closing, path_stack_dropLast scope _ hp, hu.stack_eq]
    rw [Unnesting.leave, if_neg hn, hs]
    exact filed_settle scope ts _ u hu (by simp)

theorem filed_file (scope : Text) (ts : List Statement) (d : Declaration) (u : Unnesting)
    (hu : Filed scope ts u) : Filed scope (ts ++ [.declaration d]) (u.file d) := by
  have ho : openPreludes (ts ++ [Statement.declaration d]) = openPreludes ts := by
    simp [openPreludes, lookBack]
  have hk : keyAfter scope (ts ++ [Statement.declaration d]) = keyAfter scope ts := by
    simp only [keyAfter, ho]
  rw [Unnesting.file, hu.current_eq]
  refine ⟨hu.scope_eq, by rw [ho]; exact hu.stack_eq, by rw [hk], ?_⟩
  rw [ledger_concat_declaration, ← hu.book_eq]

theorem filed_take (scope : Text) (ts : List Statement) (s : Statement) (u : Unnesting)
    (hu : Filed scope ts u) : Filed scope (ts ++ [s]) (u.take s) := by
  cases s with
  | opening t line => exact filed_enter scope ts t line u hu
  | closing line => exact filed_leave scope ts line u hu
  | declaration d => exact filed_file scope ts d u hu
  | ending t line => exact filed_idle scope ts _ u hu (by simp) (by simp [openPreludes, lookBack])
  | bare t line => exact filed_idle scope ts _ u hu (by simp) (by simp [openPreludes, lookBack])

theorem filed_takeAll (scope : Text) (before ts : List Statement) (u : Unnesting)
    (hu : Filed scope before u) : Filed scope (before ++ ts) (u.takeAll ts) := by
  induction ts generalizing before u with
  | nil => simpa [Unnesting.takeAll] using hu
  | cons s ts ih =>
    have h := ih (before ++ [s]) (u.take s) (filed_take scope before s u hu)
    simpa [Unnesting.takeAll] using h

theorem filed_run (u : Unnesting) (ts : List Statement) :
    Filed u.scope ts (u.restart.takeAll ts) :=
  filed_takeAll u.scope [] ts u.restart (filed_restart u)

theorem nodup_reached (scope : Text) (ts : List Statement) : (reached scope ts).Nodup := by
  induction ts using List.reverseRecOn with
  | nil => simp [reached, List.eraseDups_cons]
  | append_singleton ts s ih =>
    rw [reached_concat]
    split
    · exact ih
    · next h =>
      refine List.nodup_append.mpr ⟨ih, by simp, ?_⟩
      simpa using fun _ ha => ne_of_mem_of_not_mem ha h

/-- Sorted under distinct keys that are all listed, nothing is lost and nothing doubled. -/
theorem perm_flatMap_filter {α β : Type} [DecidableEq β] (f : α → β) (ks : List β) (l : List α)
    (hn : ks.Nodup) (hl : ∀ a ∈ l, f a ∈ ks) :
    (ks.flatMap fun k => l.filter fun a => f a = k).Perm l := by
  induction ks generalizing l with
  | nil =>
    have : l = [] := List.eq_nil_iff_forall_not_mem.mpr fun a ha => by simpa using hl a ha
    simp [this]
  | cons k ks ih =>
    obtain ⟨hk, hks⟩ := List.nodup_cons.mp hn
    have hrest := ih (l.filter fun a => !decide (f a = k)) hks (by
      intro a ha
      obtain ⟨hm, hne⟩ := List.mem_filter.mp ha
      exact (List.mem_cons.mp (hl a hm)).resolve_left (by simpa using hne))
    have hsame :
        (ks.flatMap fun j => (l.filter fun a => !decide (f a = k)).filter fun a => f a = j) =
        ks.flatMap fun j => l.filter fun a => f a = j := by
      apply List.flatMap_congr
      intro j hj
      rw [List.filter_filter]
      apply List.filter_congr
      intro a _
      have : j ≠ k := ne_of_mem_of_not_mem hj hk
      by_cases h : f a = j <;> simp [h, this]
    rw [hsame] at hrest
    rw [List.flatMap_cons]
    exact (hrest.append_left _).trans (List.filter_append_perm (fun a => decide (f a = k)) l)

theorem perm_ledger_lines (scope : Text) (ts : List Statement) :
    ((ledger scope ts).rules.flatMap Rule.lines).Perm ((located [] ts).map Prod.fst) := by
  have h := perm_flatMap_filter (fun p : Declaration × List Text => pathKey scope p.2)
    (reached scope ts) (located [] ts) (nodup_reached scope ts) (located_key_reached scope ts)
  have he : (ledger scope ts).rules.flatMap Rule.lines =
      ((reached scope ts).flatMap fun k => (located [] ts).filter fun p =>
        pathKey scope p.2 = k).map Prod.fst := by
    simp [ledger, Book.rules, List.flatMap_map, List.map_flatMap, linesUnder]
  rw [he]
  exact h.map Prod.fst

/-- Whatever was done before, a run leaves under each key the declarations whose paths resolve to
it, in their order, and the keys in the order in which they come up, that of the scope in front.
No declaration is lost, doubled or filed elsewhere. -/
theorem gather_book_by_path (u : Unnesting) :
    u.gather.book = ledger u.scope (readSource u.source).statements ∧
    (u.gather.book.rules.flatMap Rule.lines).Perm
      ((located [] (readSource u.source).statements).map Prod.fst) ∧
    ∀ preludes, Resolves (pathStack u.scope preludes) (pathKey u.scope preludes) := by
  have hb : u.gather.book = ledger u.scope (readSource u.source).statements :=
    (filed_run u _).book_eq
  exact ⟨hb, by rw [hb]; exact perm_ledger_lines _ _, fun ps => resolves_of_stack _⟩

end NestedCss.Filing
