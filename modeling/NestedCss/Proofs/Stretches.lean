import NestedCss.Proofs.Faultless
import NestedCss.Proofs.Sessions
import NestedCss.Proofs.Traces

/-!
# Stretches

Whatever statements are taken, a book only grows: its rules stay in their places, declarations are
put behind those that a rule has, and rules for new keys behind all others. Statements that open and
close blocks in pairs do nothing else, since they lead back to the stack that they are taken on. No
other statements do that on every stack.
-/

set_option autoImplicit false

namespace NestedCss

/-! ## Growing books -/

namespace Rule

/-- The rule with some declarations behind its own. -/
def addAll (r : Rule) (ds : List Declaration) : Rule := { r with lines := r.lines ++ ds }

theorem addAll_nil (r : Rule) : r.addAll [] = r := by simp [addAll]

theorem addAll_addAll (r : Rule) (ds es : List Declaration) :
    (r.addAll ds).addAll es = r.addAll (ds ++ es) := by
  simp [addAll]

end Rule

namespace Book

/-- The book with some declarations behind those of its rules, for each key its own. -/
def addAll (more : Key → List Declaration) (b : Book) : Book :=
  b.map fun e => (e.1, e.2.addAll (more e.1))

/-- Whether a book grew into another. Each entry stays in its place under its key, and its rule
keeps group, selector and lines and may get more lines behind them. Behind all entries stand those
of keys that the book did not have. -/
def GrowsInto (b c : Book) : Prop :=
  ∃ (more : Key → List Declaration) (fresh : Book),
    c = b.addAll more ++ fresh ∧ ∀ k ∈ fresh.keys, k ∉ b.keys

variable {b c d : Book}

theorem keys_addAll (more : Key → List Declaration) (b : Book) : (b.addAll more).keys = b.keys := by
  simp [keys, addAll, Function.comp_def]

theorem keys_append (b c : Book) : keys (b ++ c) = b.keys ++ c.keys := List.map_append

theorem addAll_append (more : Key → List Declaration) (b c : Book) :
    addAll more (b ++ c) = b.addAll more ++ c.addAll more :=
  List.map_append

theorem addAll_nothing (b : Book) : b.addAll (fun _ => []) = b := by
  simp [addAll, Rule.addAll_nil]

theorem addAll_addAll (more more' : Key → List Declaration) (b : Book) :
    (b.addAll more).addAll more' = b.addAll fun k => more k ++ more' k := by
  simp [addAll, Function.comp_def, Rule.addAll_addAll]

theorem grows_refl (b : Book) : b.GrowsInto b :=
  ⟨fun _ => [], [], by rw [addAll_nothing, List.append_nil], by simp [keys]⟩

theorem GrowsInto.trans (h : b.GrowsInto c) (h' : c.GrowsInto d) : b.GrowsInto d := by
  obtain ⟨more, fresh, rfl, hf⟩ := h
  obtain ⟨more', fresh', rfl, hf'⟩ := h'
  refine ⟨fun k => more k ++ more' k, fresh.addAll more' ++ fresh', ?_, fun k hk => ?_⟩
  · rw [addAll_append, addAll_addAll, List.append_assoc]
  · rw [keys_append, keys_addAll, List.mem_append] at hk
    rcases hk with hk | hk
    · exact hf k hk
    · intro hb
      refine hf' k hk ?_
      rw [keys_append, keys_addAll]
      exact List.mem_append_left _ hb

theorem grows_reach (b : Book) (k : Key) : b.GrowsInto (b.reach k) := by
  by_cases hk : k ∈ b.keys
  · rw [reach_of_mem b k hk]
    exact grows_refl b
  · refine ⟨fun _ => [], [(k, Rule.ofKey k)], ?_, by simpa [keys] using hk⟩
    rw [reach, if_neg (by simpa using hk), addAll_nothing]

theorem grows_file (b : Book) (k : Key) (d : Declaration) : b.GrowsInto (b.file k d) := by
  refine ⟨fun l => if l = k then [d] else [], [], ?_, by simp [keys]⟩
  rw [List.append_nil, file, addAll]
  refine List.map_congr_left fun e _ => ?_
  by_cases he : e.1 = k
  · simp [he, Rule.add, Rule.addAll]
  · simp [he, Rule.addAll_nil]

theorem GrowsInto.mem_keys (h : b.GrowsInto c) {k : Key} (hk : k ∈ b.keys) : k ∈ c.keys := by
  obtain ⟨more, fresh, rfl, -⟩ := h
  rw [keys_append, keys_addAll]
  exact List.mem_append_left _ hk

/-- The rule that is found under a key is still found there. -/
theorem GrowsInto.lookup_eq (h : b.GrowsInto c) {k : Key} {r : Rule} (hr : b.lookup k = some r) :
    ∃ ds, c.lookup k = some (r.addAll ds) := by
  obtain ⟨more, fresh, rfl, -⟩ := h
  obtain ⟨front, back, rfl, hf⟩ := List.lookup_eq_some_iff.mp hr
  refine ⟨more k, List.lookup_eq_some_iff.mpr
    ⟨addAll more front, addAll more back ++ fresh, ?_, List.forall_mem_map.mpr hf⟩⟩
  rw [addAll_append, List.append_assoc]
  rfl

end Book

namespace Unnesting

theorem grows_take (u : Unnesting) (s : Statement) : u.book.GrowsInto (u.take s).book := by
  cases s with
  | opening t line => exact Book.grows_reach u.book _
  | closing line =>
    rw [take, leave]
    split
    · exact Book.grows_refl u.book
    · exact Book.grows_reach u.book _
  | declaration d =>
    rw [take, file]
    split
    · exact Book.grows_file u.book _ d
    · exact Book.grows_refl u.book
  | ending t line => exact Book.grows_refl u.book
  | bare t line => exact Book.grows_refl u.book

/-- Nothing that is filed is ever moved, changed or taken out again. -/
theorem grows_takeAll (u : Unnesting) (ts : List Statement) :
    u.book.GrowsInto (u.takeAll ts).book := by
  induction ts generalizing u with
  | nil => exact Book.grows_refl u.book
  | cons s ts ih => exact (grows_take u s).trans (ih (u.take s))

end Unnesting

/-! ## Nesting -/

namespace Filing
open Grammar

variable {ss ts : List Statement}

theorem nested_append (hs : WellNested ss) (ht : WellNested ts) : WellNested (ss ++ ts) := by
  induction hs with
  | nil => exact ht
  | flat s ss hs _ ih => exact .flat s _ hs ih
  | block t line₁ line₂ ss us hs _ _ ih =>
    rw [List.cons_append, List.append_assoc, List.cons_append]
    exact .block t line₁ line₂ ss _ hs ih

theorem balanced_flat (s : Statement) (hs : ∀ path, behind path s = path) (blocks : Nat) :
    balanced blocks (s :: ts) = balanced blocks ts := by
  cases s with
  | opening t line => exact absurd (hs []) (by simp [behind])
  | closing line => exact absurd (hs [[]]) (by simp [behind])
  | _ => rfl

theorem balanced_nested (hs : WellNested ss) (blocks : Nat) (ts : List Statement) :
    balanced blocks (ss ++ ts) = balanced blocks ts := by
  induction hs generalizing blocks ts with
  | nil => rfl
  | flat s ss hs _ ih => rw [List.cons_append, balanced_flat s hs, ih]
  | block t line₁ line₂ ss us _ _ ihs iht =>
    rw [List.cons_append, List.append_assoc, List.cons_append, balanced, ihs, balanced,
      Nat.add_sub_cancel, iht]
    simp

/-- Whether some statements are well nested but for closing so many blocks that were open before. -/
def Unwinds : Nat → List Statement → Prop
  | 0, ts => WellNested ts
  | n + 1, ts => ∃ ss line rest, WellNested ss ∧ ts = ss ++ .closing line :: rest ∧ Unwinds n rest

theorem unwinds_append (hs : WellNested ss) (n : Nat) (h : Unwinds n ts) :
    Unwinds n (ss ++ ts) := by
  cases n with
  | zero => exact nested_append hs h
  | succ n =>
    obtain ⟨us, line, rest, hu, rfl, hr⟩ := h
    exact ⟨ss ++ us, line, rest, nested_append hs hu, (List.append_assoc ss us _).symm, hr⟩

theorem unwinds_of_balanced (n : Nat) (ts : List Statement) (h : balanced n ts = true) :
    Unwinds n ts := by
  induction ts generalizing n with
  | nil =>
    obtain rfl : n = 0 := by simpa [balanced] using h
    exact .nil
  | cons s ts ih =>
    have flat (hs : ∀ path, behind path s = path) (hb : balanced n ts = true) :
        Unwinds n (s :: ts) := unwinds_append (.flat s [] hs .nil) n (ih n hb)
    cases s with
    | opening t line =>
      -- the first brace that closes no block of what follows closes this one
      obtain ⟨ss, line', rest, hs, rfl, hr⟩ := ih (n + 1) h
      have hb := unwinds_append (.block t line line' ss [] hs .nil) n hr
      simpa using hb
    | closing line =>
      obtain ⟨hn, hb⟩ : n ≠ 0 ∧ balanced (n - 1) ts = true := by simpa [balanced] using h
      obtain ⟨m, rfl⟩ := Nat.exists_eq_succ_of_ne_zero hn
      exact ⟨[], line, ts, .nil, rfl, ih m hb⟩
    | declaration d => exact flat (fun _ => rfl) h
    | ending t line => exact flat (fun _ => rfl) h
    | bare t line => exact flat (fun _ => rfl) h

/-- Counting the open blocks tells whether statements are well nested. -/
theorem nested_iff_balanced (ts : List Statement) : WellNested ts ↔ balanced 0 ts = true := by
  refine ⟨fun h => ?_, unwinds_of_balanced 0 ts⟩
  have hb := balanced_nested h 0 []
  rwa [List.append_nil] at hb

instance : DecidablePred WellNested := fun ts => decidable_of_iff _ (nested_iff_balanced ts).symm

end Filing

namespace Unnesting
open Filing

/-! ## Leading back -/

/-- Whether something is on the stack, its key is the current one, and the keys of all that the
stack comes down to are in the book. -/
structure Settled (u : Unnesting) : Prop where
  stack_ne_nil : u.stack ≠ []
  current_eq : u.current = some (Key.ofStack u.stack)
  below : ∀ s, s ≠ [] → s <+: u.stack → Key.ofStack s ∈ u.book.keys

variable {u : Unnesting}

/-- Every session is settled once anything is on the stack. -/
theorem Standing.settled (h : Standing u) (hn : u.stack ≠ []) : Settled u :=
  ⟨hn, by rw [h.current_eq, if_neg hn], h.below⟩

theorem Settled.grown (h : Settled u) {b : Book} (hb : u.book.GrowsInto b) :
    Settled { u with book := b } :=
  ⟨h.stack_ne_nil, h.current_eq, fun s hs hp => hb.mem_keys (h.below s hs hp)⟩

/-- Leaving a block that was just entered leads back to the stack and its key. -/
theorem leave_enter (hn : u.stack ≠ []) (hc : u.current = some (Key.ofStack u.stack)) (t : Text)
    (b : Book) (line : Option Int) :
    { u.enter t with book := b }.leave line = { u with book := b.reach (Key.ofStack u.stack) } := by
  have hl : ¬ (u.enter t).stack.length ≤ 1 := by
    have := List.length_pos_iff.mpr hn
    rw [enter, stack_settle, List.length_append, List.length_singleton]
    omega
  have hd : (u.enter t).stack.dropLast = u.stack := List.dropLast_concat
  rw [leave, if_neg hl, settle, hd, ← hc]
  rfl

/-- A statement that leaves all paths alone changes the book at most. -/
theorem take_flat (u : Unnesting) (s : Statement) (hs : ∀ path, behind path s = path) :
    ∃ b, u.take s = { u with book := b } := by
  cases s with
  | opening t line => exact absurd (hs []) (by simp [behind])
  | closing line => exact absurd (hs [[]]) (by simp [behind])
  | declaration d =>
    rw [take, file]
    split
    · exact ⟨_, rfl⟩
    · exact ⟨u.book, rfl⟩
  | ending t line => exact ⟨u.book, rfl⟩
  | bare t line => exact ⟨u.book, rfl⟩

/-- What is well nested changes the book at most. The stack that it was taken on stays below, so no
brace in it can be missing its block. -/
theorem takeAll_nested {ts : List Statement} (h : WellNested ts) (hn : u.stack ≠ [])
    (hc : u.current = some (Key.ofStack u.stack)) : ∃ b, u.takeAll ts = { u with book := b } := by
  induction h generalizing u with
  | nil => exact ⟨u.book, rfl⟩
  | flat s ss hs _ ih =>
    obtain ⟨b, hb⟩ := take_flat u s hs
    obtain ⟨c, hk⟩ := @ih { u with book := b } hn hc
    refine ⟨c, Eq.trans ?_ hk⟩
    rw [← hb]
    rfl
  | block t line₁ line₂ ss ts _ _ ihs iht =>
    obtain ⟨b, hb⟩ := @ihs (u.enter t) (by simp [enter, stack_settle]) rfl
    have hl : ((u.enter t).takeAll ss).leave (some line₂) =
        { u with book := b.reach (Key.ofStack u.stack) } := by
      rw [hb, leave_enter hn hc]
    obtain ⟨c, hk⟩ := @iht { u with book := b.reach (Key.ofStack u.stack) } hn hc
    refine ⟨c, Eq.trans ?_ hk⟩
    rw [← hl]
    exact takeAll_append (u.enter t) ss (.closing line₂ :: ts)

/-- Statements are well nested exactly when, taken in whatever settled state, they change nothing
but the book and only let it grow: the stack, the current key and the faults are as before, the
current rule is the one before, with declarations behind its own, and the state is settled again. -/
theorem well_nested_iff_neutral (ts : List Statement) :
    WellNested ts ↔ ∀ u : Unnesting, u.Settled →
      let v := u.takeAll ts
      v = { u with book := v.book } ∧ u.book.GrowsInto v.book ∧ v.Settled ∧
        ∃ r ds, u.currentRule = some r ∧ v.currentRule = some (r.addAll ds) := by
  constructor
  · intro h u hu v
    obtain ⟨b, hb⟩ := takeAll_nested h hu.stack_ne_nil hu.current_eq
    have hg : u.book.GrowsInto v.book := grows_takeAll u ts
    have hv : v = { u with book := v.book } := by rw [show v = { u with book := b } from hb]
    have hs : v.Settled := by
      rw [hv]
      exact hu.grown hg
    obtain ⟨r, hr, -⟩ :=
      Book.exists_of_mem_keys u.book _ (hu.below u.stack hu.stack_ne_nil (List.prefix_refl _))
    obtain ⟨ds, hd⟩ := hg.lookup_eq hr
    refine ⟨hv, hg, hs, r, ds, ?_, ?_⟩
    · rw [currentRule, hu.current_eq]
      exact hr
    · rw [hv, currentRule, hu.current_eq]
      exact hd
  · intro h
    -- with the scope alone on the stack, any other brace would show
    let u : Unnesting := (start [] [] Settings.standard).restart
    obtain ⟨hv, -⟩ := h u ((standing_restart _).settled (by simp [restart, enter, stack_settle]))
    have hf : (u.takeAll ts).faults ++ (u.takeAll ts).openFaults 0 = [] := by
      rw [hv]
      rfl
    exact (nested_iff_balanced ts).mpr ((Grammar.faults_takeAll u 0 0 ts rfl rfl).mp hf)

/-- A block that has been entered and has a declaration already. -/
def inCard : Unnesting :=
  (start [] ".s".toList Settings.standard).restart.takeAll
    [.opening ".card".toList 1, .declaration ⟨"color:red;".toList, 1⟩]

/-- More of it, in which a block files where it stands itself, and one goes under new keys. -/
def restOfCard : List Statement :=
  [.opening "&".toList 2, .declaration ⟨"top:0;".toList, 2⟩, .closing 2,
    .opening "@media print".toList 3, .opening "&,.s".toList 3,
    .declaration ⟨"left:0;".toList, 3⟩, .closing 3, .closing 3,
    .declaration ⟨"margin:0;".toList, 4⟩]

theorem well_nested_iff_neutral_of_card :
    let v := inCard.takeAll restOfCard
    WellNested restOfCard ∧ inCard.Settled ∧
      (v = { inCard with book := v.book } ∧ inCard.book.GrowsInto v.book ∧ v.Settled ∧
        ∃ r ds, inCard.currentRule = some r ∧ v.currentRule = some (r.addAll ds)) ∧
      v.currentRule = some ⟨[], ".s .card".toList, [⟨"color:red;".toList, 1⟩,
        ⟨"top:0;".toList, 2⟩, ⟨"margin:0;".toList, 4⟩]⟩ ∧
      v.book.keys = inCard.book.keys ++ [⟨"@media print".toList, ".s .card".toList⟩,
        ⟨"@media print".toList, ".s .card,.s .card .s".toList⟩] := by
  intro v
  have hn : WellNested restOfCard := by decide
  have hs : inCard.Settled :=
    (standing_takeAll (standing_restart _) _).settled
      (stack_takeAll_ne_nil (by simp [restart, enter, stack_settle]) _)
  exact ⟨hn, hs, (well_nested_iff_neutral restOfCard).mp hn inCard hs, by decide +kernel,
    by decide +kernel⟩

end Unnesting

end NestedCss
