import Mathlib.Data.List.Infix
import NestedCss.Proofs.Headers
import NestedCss.Unnesting

/-!
# Sessions

An unnesting may be used in any order: blocks are entered and left, statements and whole sources are
taken, the source and the scope are replaced, and the source is unnested again and again. All the
while the book has one rule for each key, and every stack that can be left on has its key in the
book, so that leaving a block leads back to a rule that is there. A run starts over, and nothing of
the session before it is left in what it makes.
-/

set_option autoImplicit false

namespace NestedCss

namespace Book

/-- Whether each key has one rule, which has its selector, and its group as well, except that
keyframes may have got another name. -/
structure Keyed (b : Book) : Prop where
  nodup : b.keys.Nodup
  selector_eq : ∀ e ∈ b, e.2.selector = e.1.selector
  group_eq : ∀ e ∈ b, Prelude.kind e.1.group ≠ .keyframes → e.2.group = e.1.group

theorem keyed_nil : Keyed [] := ⟨List.nodup_nil, by simp, by simp⟩

theorem keyed_reach (b : Book) (k : Key) (h : Keyed b) : Keyed (b.reach k) := by
  have hm : ∀ e ∈ b.reach k, e ∈ b ∨ e = (k, Rule.ofKey k) := by
    intro e he
    rw [reach] at he
    split at he
    · exact Or.inl he
    · simpa using he
  refine ⟨nodup_keys_reach b k h.nodup, fun e he => ?_, fun e he hk => ?_⟩
  · rcases hm e he with he | rfl
    · exact h.selector_eq e he
    · rfl
  · rcases hm e he with he | rfl
    · exact h.group_eq e he hk
    · rfl

/-- What is done to the rules where they stand keeps a book keyed, as long as it leaves alone
selectors and groups, but for those of keyframes. -/
theorem Keyed.of_entries {b c : Book} (h : Keyed b) (hk : c.keys = b.keys)
    (hm : ∀ e ∈ c, ∃ r, (e.1, r) ∈ b ∧ e.2.selector = r.selector ∧
      (Prelude.kind r.group ≠ .keyframes → e.2.group = r.group)) : Keyed c := by
  refine ⟨by rw [hk]; exact h.nodup, fun e he => ?_, fun e he hn => ?_⟩
  · obtain ⟨r, hr, hs, -⟩ := hm e he
    exact hs.trans (h.selector_eq _ hr)
  · obtain ⟨r, hr, -, hg⟩ := hm e he
    have hrg : r.group = e.1.group := h.group_eq _ hr hn
    exact (hg (by rwa [hrg])).trans hrg

theorem keyed_file (b : Book) (k : Key) (d : Declaration) (h : Keyed b) : Keyed (b.file k d) := by
  refine h.of_entries (keys_file b k d) fun e he => ?_
  obtain ⟨⟨l, r⟩, hr, rfl⟩ := List.mem_map.mp he
  refine ⟨r, hr, ?_⟩
  dsimp only
  split <;> exact ⟨rfl, fun _ => rfl⟩

theorem exists_of_mem_keys (b : Book) (k : Key) (h : k ∈ b.keys) :
    ∃ r, b.lookup k = some r ∧ (k, r) ∈ b := by
  obtain ⟨e, he, rfl⟩ := List.mem_map.mp h
  have hs : (b.lookup e.1).isSome := List.lookup_isSome_iff.mpr ⟨e, he, by simp⟩
  obtain ⟨r, hr⟩ := Option.isSome_iff_exists.mp hs
  obtain ⟨front, back, hb, -⟩ := List.lookup_eq_some_iff.mp hr
  exact ⟨r, hr, by rw [hb]; simp⟩

theorem reach_of_mem (b : Book) (k : Key) (h : k ∈ b.keys) : b.reach k = b := by
  rw [reach, if_pos (by simpa using h)]

end Book

namespace Animation

theorem renameGroup_of_kind (f : Text → Text) (group : Text)
    (h : Prelude.kind group ≠ .keyframes) : renameGroup f group = group := by
  rw [renameGroup]
  split
  · next hd ht =>
    rw [Prelude.kind, ht] at h
    exact absurd rfl h
  · rfl

theorem keyed_rename (f : Text → Text) (b : Book) (h : b.Keyed) : (rename f b).Keyed := by
  by_cases hn : names b.filled = []
  · rwa [rename_of_names_nil f b hn]
  · rw [rename_of_names f b hn]
    refine h.of_entries (Book.keys_mapFilled _ b) fun e he => ?_
    obtain ⟨⟨l, r⟩, hr, rfl⟩ := List.mem_map.mp he
    refine ⟨r, hr, ?_⟩
    dsimp only
    split
    · exact ⟨rfl, fun _ => rfl⟩
    · exact ⟨rfl, renameGroup_of_kind f r.group⟩

end Animation

namespace Unnesting

/-- What may be done with an unnesting. -/
inductive Action where
  | enter (t : Text)
  | leave (line : Option Int)
  | take (s : Statement)
  | feed (source : Text)
  | run
  | replaceSource (source : Text)
  | replaceScope (scope : Text)
  deriving DecidableEq, Repr

def act (u : Unnesting) : Action → Unnesting
  | .enter t => u.enter t
  | .leave line => u.leave line
  | .take s => u.take s
  | .feed source => u.feed source
  | .run => u.run
  | .replaceSource source => { u with source := source }
  | .replaceScope scope => { u with scope := scope }

def actAll (u : Unnesting) (as : List Action) : Unnesting := as.foldl act u

theorem keys_renamed (u : Unnesting) : u.renamed.book.keys = u.book.keys := by
  rw [renamed]
  split
  · exact Animation.keys_rename _ u.book
  · rfl

/-! ## Stack and book in step -/

/-- Whether the book is keyed and knows the keys of all that the stack holds or comes down to, with
that of the stack itself as the current one. -/
structure Standing (u : Unnesting) : Prop where
  keyed : u.book.Keyed
  current_eq : u.current = if u.stack = [] then none else some (Key.ofStack u.stack)
  below : ∀ s, s ≠ [] → s <+: u.stack → Key.ofStack s ∈ u.book.keys

variable {u : Unnesting}

theorem standing_start (source scope : Text) (settings : Settings) :
    Standing (start source scope settings) where
  keyed := Book.keyed_nil
  current_eq := rfl
  below _ hs hp := absurd (List.prefix_nil.mp hp) hs

/-- Going on with a stack is sound where the keys of all that lies below its top are known. -/
theorem standing_settle (h : u.book.Keyed) (stack : List Text) (hn : stack ≠ [])
    (hb : ∀ s, s ≠ [] → s <+: stack → s ≠ stack → Key.ofStack s ∈ u.book.keys) :
    Standing (u.settle stack) where
  keyed := Book.keyed_reach u.book _ h
  current_eq := (if_neg hn).symm
  below s hs hp := by
    by_cases he : s = stack
    · rw [he]
      exact Book.mem_keys_reach u.book _
    · show Key.ofStack s ∈ (u.book.reach _).keys
      rw [Book.keys_reach]
      have hm := hb s hs hp he
      split
      · exact hm
      · exact List.mem_append_left _ hm

theorem standing_enter (h : Standing u) (t : Text) : Standing (u.enter t) := by
  refine standing_settle h.keyed _ (by simp) fun s hs hp hne => ?_
  exact h.below s hs ((List.prefix_concat_iff.mp hp).resolve_left hne)

theorem dropLast_ne_nil {stack : List Text} (h : ¬ stack.length ≤ 1) : stack.dropLast ≠ [] := by
  rw [← List.length_pos_iff, List.length_dropLast]
  omega

theorem standing_leave (h : Standing u) (line : Option Int) : Standing (u.leave line) := by
  rw [leave]
  split
  · exact ⟨h.keyed, h.current_eq, h.below⟩
  · next hl =>
    exact standing_settle h.keyed _ (dropLast_ne_nil hl) fun s hs hp _ =>
      h.below s hs (hp.trans (List.dropLast_prefix _))

theorem standing_file (h : Standing u) (d : Declaration) : Standing (u.file d) := by
  rw [file]
  split
  · next key hc =>
    refine ⟨Book.keyed_file u.book key d h.keyed, h.current_eq, fun s hs hp => ?_⟩
    show _ ∈ (u.book.file key d).keys
    rw [Book.keys_file]
    exact h.below s hs hp
  · exact h

theorem standing_take (h : Standing u) (s : Statement) : Standing (u.take s) := by
  cases s with
  | opening t line => exact standing_enter h t
  | closing line => exact standing_leave h (some line)
  | declaration d => exact standing_file h d
  | ending t line => exact h
  | bare t line => exact h

theorem standing_takeAll (h : Standing u) (ts : List Statement) : Standing (u.takeAll ts) := by
  induction ts generalizing u with
  | nil => exact h
  | cons s ts ih => exact ih (standing_take h s)

/-- Starting over asks for nothing, not even of the current key, which stays until the scope is
entered. -/
theorem standing_restart (u : Unnesting) : Standing u.restart := by
  refine standing_settle Book.keyed_nil _ (by simp) fun s hs hp hne => ?_
  exact absurd (List.prefix_nil.mp ((List.prefix_concat_iff.mp hp).resolve_left hne)) hs

theorem standing_gather (u : Unnesting) : Standing u.gather := by
  obtain ⟨hk, hc, hb⟩ := standing_takeAll (standing_restart u) (Scan.readSource u.source).statements
  exact ⟨hk, hc, hb⟩

theorem standing_renamed (h : Standing u) : Standing u.renamed := by
  rw [renamed]
  split
  · refine ⟨Animation.keyed_rename _ u.book h.keyed, h.current_eq, fun s hs hp => ?_⟩
    show _ ∈ (Animation.rename u.namespaced u.book).keys
    rw [Animation.keys_rename]
    exact h.below s hs hp
  · exact h

theorem standing_act (h : Standing u) (a : Action) : Standing (u.act a) := by
  cases a with
  | enter t => exact standing_enter h t
  | leave line => exact standing_leave h line
  | take s => exact standing_take h s
  | feed source => exact standing_takeAll h _
  | run => exact standing_renamed (standing_gather u)
  | replaceSource source => exact ⟨h.keyed, h.current_eq, h.below⟩
  | replaceScope scope => exact ⟨h.keyed, h.current_eq, h.below⟩

theorem standing_actAll (h : Standing u) (as : List Action) : Standing (u.actAll as) := by
  induction as generalizing u with
  | nil => exact h
  | cons a as ih => exact ih (standing_act h a)

/-- Leaving a block leads to a rule that is there. -/
theorem Standing.book_leave (h : Standing u) (line : Option Int) :
    (u.leave line).book = u.book := by
  rw [leave]
  split
  · rfl
  · next hl =>
    exact Book.reach_of_mem u.book _ (h.below _ (dropLast_ne_nil hl) (List.dropLast_prefix _))

theorem Standing.exists_current (h : Standing u) (hn : u.stack ≠ []) :
    ∃ r, (Key.ofStack u.stack, r) ∈ u.book ∧ u.currentRule = some r := by
  obtain ⟨r, hl, hr⟩ := Book.exists_of_mem_keys _ _ (h.below u.stack hn (List.prefix_refl _))
  refine ⟨r, hr, ?_⟩
  rw [currentRule, h.current_eq, if_neg hn]
  exact hl

/-! ## Stacks stay -/

theorem stack_leave_ne_nil (hn : u.stack ≠ []) (line : Option Int) : (u.leave line).stack ≠ [] := by
  rw [leave]
  split
  · exact hn
  · next hl => exact dropLast_ne_nil hl

theorem stack_take_ne_nil (hn : u.stack ≠ []) (s : Statement) : (u.take s).stack ≠ [] := by
  cases s with
  | opening t line => simp [take, enter, stack_settle]
  | closing line => exact stack_leave_ne_nil hn (some line)
  | declaration d => rwa [take, stack_file]
  | ending t line => exact hn
  | bare t line => exact hn

theorem stack_takeAll_ne_nil (hn : u.stack ≠ []) (ts : List Statement) :
    (u.takeAll ts).stack ≠ [] := by
  induction ts generalizing u with
  | nil => exact hn
  | cons s ts ih => exact ih (stack_take_ne_nil hn s)

theorem stack_run_ne_nil (u : Unnesting) : u.run.stack ≠ [] := by
  have hr : u.restart.stack ≠ [] := by simp [restart, enter, stack_settle]
  have hg : u.gather.stack ≠ [] := stack_takeAll_ne_nil hr _
  rw [run, renamed]
  split <;> exact hg

theorem stack_act_ne_nil (hn : u.stack ≠ []) (a : Action) : (u.act a).stack ≠ [] := by
  cases a with
  | enter t => simp [act, enter, stack_settle]
  | leave line => exact stack_leave_ne_nil hn line
  | take s => exact stack_take_ne_nil hn s
  | feed source => exact stack_takeAll_ne_nil hn _
  | run => exact stack_run_ne_nil u
  | replaceSource source => exact hn
  | replaceScope scope => exact hn

theorem stack_actAll_ne_nil (hn : u.stack ≠ []) (as : List Action) : (u.actAll as).stack ≠ [] := by
  induction as generalizing u with
  | nil => exact hn
  | cons a as ih => exact ih (stack_act_ne_nil hn a)

/-- In every session each key of the book has one rule, which has its selector and, keyframes aside,
its group. Once anything is on the stack, the current rule is that of its key, all that lies below
its top has its key in the book, and nothing ever empties it. Leaving a block makes no rule. -/
theorem stack_and_book_in_step (source scope : Text) (settings : Settings) (as bs : List Action) :
    let u := (start source scope settings).actAll as
    (u.book.keys.Nodup ∧ ∀ e ∈ u.book, e.2.selector = e.1.selector ∧
      (Prelude.kind e.1.group ≠ .keyframes → e.2.group = e.1.group)) ∧
    (u.stack ≠ [] →
      (∃ r, (Key.ofStack u.stack, r) ∈ u.book ∧ u.currentRule = some r) ∧
      (∀ s, s ≠ [] → s <+: u.stack → Key.ofStack s ∈ u.book.keys) ∧
      (u.actAll bs).stack ≠ []) ∧
    ∀ line, (u.leave line).book = u.book := by
  intro u
  have h : Standing u := standing_actAll (standing_start source scope settings) as
  refine ⟨⟨h.keyed.nodup, fun e he => ⟨h.keyed.selector_eq e he, h.keyed.group_eq e he⟩⟩,
    fun hn => ⟨h.exists_current hn, h.below, stack_actAll_ne_nil hn bs⟩, h.book_leave⟩

/-! ## Starting over -/

/-- What an unnesting is given from outside. -/
def given (u : Unnesting) : Text × Text × Settings := (u.source, u.scope, u.settings)

/-- The source that some actions leave in place of another. -/
def sourceAfter (source : Text) : List Action → Text
  | [] => source
  | .replaceSource t :: as => sourceAfter t as
  | _ :: as => sourceAfter source as

/-- The scope that some actions leave in place of another. -/
def scopeAfter (scope : Text) : List Action → Text
  | [] => scope
  | .replaceScope t :: as => scopeAfter t as
  | _ :: as => scopeAfter scope as

theorem given_leave (u : Unnesting) (line : Option Int) : (u.leave line).given = u.given := by
  rw [leave]
  split <;> rfl

theorem given_take (u : Unnesting) (s : Statement) : (u.take s).given = u.given := by
  cases s with
  | closing line => exact given_leave u (some line)
  | declaration d =>
    rw [take, file]
    split <;> rfl
  | _ => rfl

theorem given_takeAll (u : Unnesting) (ts : List Statement) : (u.takeAll ts).given = u.given := by
  induction ts generalizing u with
  | nil => rfl
  | cons s ts ih => exact (ih (u.take s)).trans (given_take u s)

theorem given_run (u : Unnesting) : u.run.given = u.given := by
  have hg : u.gather.given = u.given := given_takeAll u.restart _
  rw [run, renamed]
  split <;> exact hg

theorem given_actAll (u : Unnesting) (as : List Action) :
    (u.actAll as).given = (sourceAfter u.source as, scopeAfter u.scope as, u.settings) := by
  induction as generalizing u with
  | nil => rfl
  | cons a as ih =>
    have hkept : ∀ v : Unnesting, v.given = u.given → (v.actAll as).given =
        (sourceAfter u.source as, scopeAfter u.scope as, u.settings) := by
      intro v hv
      simp only [given, Prod.mk.injEq] at hv
      rw [ih v, hv.1, hv.2.1, hv.2.2]
    cases a with
    | enter t => exact hkept (u.enter t) rfl
    | leave line => exact hkept (u.leave line) (given_leave u line)
    | take s => exact hkept (u.take s) (given_take u s)
    | feed source => exact hkept (u.feed source) (given_takeAll u _)
    | run => exact hkept u.run (given_run u)
    | replaceSource source => exact ih _
    | replaceScope scope => exact ih _

/-- A run takes nothing over from the state it starts in: every field is set anew, the current key
with the first stack. -/
theorem run_eq_start (u : Unnesting) : u.run = (start u.source u.scope u.settings).run := rfl

/-- However an unnesting was used before, its run gives the css, faults, stack, book and current
rule that a new one gives of the source and the scope that were put in last. -/
theorem run_forgets_session (source scope : Text) (settings : Settings) (as : List Action) :
    ((start source scope settings).actAll as).run =
      (start (sourceAfter source as) (scopeAfter scope as) settings).run := by
  have hg := given_actAll (start source scope settings) as
  simp only [given, Prod.mk.injEq] at hg
  rw [run_eq_start, hg.1, hg.2.1, hg.2.2]
  rfl

end Unnesting

end NestedCss
