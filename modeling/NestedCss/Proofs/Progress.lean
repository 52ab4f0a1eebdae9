import NestedCss.Proofs.Locality

/-!
# Reading comes to an end

A reader may be asked for a glance, a character, a statement or all the statements, in any order.
Whatever it has been asked, the next statement comes out of the queue or costs at least one
character, until there is nothing left to read. A statement is paid for by the characters that have
been read: a brace or a semicolon each ends at most one declaration, and a declaration has a
character of its own. So there are never more statements than characters.
-/

set_option autoImplicit false

namespace NestedCss.Scan

/-! ## Statements are paid for -/

namespace Draft

/-- The number of statements that a draft would make by itself. -/
def weight (d : Draft) : Nat := if d.text = [] then 0 else 1

theorem weight_le (d : Draft) : d.weight ≤ 1 := by
  unfold weight
  split <;> omega

theorem length_declarations (d : Draft) (line : Int) :
    (d.declarations line).length = d.weight := by
  simp only [declarations, declaration?, weight]
  split <;> rfl

theorem mark_paid (d : Draft) (line : Int) (c : Char) :
    (d.mark line c).statements.length + (d.mark line c).draft.weight ≤ d.weight + 1 := by
  have he : empty.weight = 0 := rfl
  have hd := d.length_declarations line
  have silent : ∀ e : Draft, ([] : List Statement).length + e.weight ≤ d.weight + 1 := by
    intro e
    have he := e.weight_le
    rw [List.length_nil]
    omega
  fun_cases mark d line c
  · exact silent _
  · exact silent _
  · simp [he]
  · simp [he, hd]
  · simp [he, hd]
  · exact silent _

theorem step_paid (d : Draft) (line : Int) (x : Lexeme) :
    (d.step line x).statements.length + (d.step line x).draft.weight ≤
      d.weight + x.source.length := by
  cases x with
  | mark c => exact mark_paid d line c
  | quotation q body ending =>
    have hw := (d.put (stringText q body ending)).weight_le
    have hl := List.length_pos_iff.mpr (source_ne_nil (.quotation q body ending))
    simp only [step, List.length_nil]
    omega
  | _ => exact Nat.le_add_right_of_le (Nat.le_of_eq (Nat.zero_add _))

end Draft

theorem readFirst_paid (line : Int) (d : Draft) (xs : List Lexeme) :
    (readFirst line d xs).statements.length ≤ d.weight + (readFirst line d xs).width := by
  induction xs generalizing line d with
  | nil => exact Nat.le_of_eq (d.length_declarations line)
  | cons x xs ih =>
    have hx := d.step_paid line x
    rw [readFirst]
    cases hs : (d.step line x).statements with
    | nil =>
      have hi := ih (line + x.breaks) (d.step line x).draft
      simp only [Pause.prepend]
      omega
    | cons s ss =>
      rw [hs] at hx
      simp only
      omega

theorem readFirst_width_pos (line : Int) (d : Draft) (xs : List Lexeme) (h : xs ≠ []) :
    0 < (readFirst line d xs).width := by
  obtain ⟨x, ys, rfl⟩ := List.exists_cons_of_ne_nil h
  have hl := List.length_pos_iff.mpr (source_ne_nil x)
  rw [readFirst]
  split
  · exact Nat.add_pos_left hl _
  · exact hl

theorem readFirst_width_le (line : Int) (d : Draft) (xs : List Lexeme) :
    (readFirst line d xs).width ≤ (xs.flatMap Lexeme.source).length := by
  induction xs generalizing line d with
  | nil => exact Nat.le_refl 0
  | cons x xs ih =>
    rw [readFirst, List.flatMap_cons, List.length_append]
    split
    · exact Nat.add_le_add_left (ih _ _) _
    · exact Nat.le_add_right _ _

/-- A pause without a statement is the end of the source. -/
theorem readFirst_silent (line : Int) (d : Draft) (xs : List Lexeme)
    (h : (readFirst line d xs).statements = []) :
    (readFirst line d xs).width = (xs.flatMap Lexeme.source).length := by
  induction xs generalizing line d with
  | nil => rfl
  | cons x xs ih =>
    rw [readFirst] at h ⊢
    rw [List.flatMap_cons, List.length_append]
    split at h
    · exact congrArg _ (ih _ _ h)
    · next hs => exact absurd h hs

/-! ## Calls to a reader -/

/-- What a reader may be asked: to look ahead, to move by a character, by a statement or to the
end. -/
inductive Call where
  | peek (amount : Int)
  | next
  | consume
  | drain
  deriving DecidableEq, Repr

/-- Takes steps until one gives an ending, which is left out. -/
inductive Until {σ : Type} (step : σ → Statement × σ) : σ → List Statement → σ → Prop where
  | ended (s : σ) : (step s).1.isEnding = true → Until step s [] (step s).2
  | more (s e : σ) (given : List Statement) : (step s).1.isEnding = false →
      Until step (step s).2 given e → Until step s ((step s).1 :: given) e

theorem Until.proper {σ : Type} {step : σ → Statement × σ} {s e : σ} {given : List Statement}
    (h : Until step s given e) : given.filter (!·.isEnding) = given := by
  induction h with
  | ended s _ => rfl
  | more s e given hs _ ih => simp [hs, ih]

namespace Reader

/-- The statements that a call gives out, and the reader behind it. -/
def call (r : Reader) : Call → List Statement × Reader
  | .peek _ => ([], r)
  | .next => ([], r.next.2)
  | .consume => ([r.consume.1], r.consume.2)
  | .drain => r.drain

def callAll (r : Reader) : List Call → List Statement × Reader
  | [] => ([], r)
  | c :: cs =>
    let (given, s) := r.call c
    let (more, e) := s.callAll cs
    (given ++ more, e)

/-- What holds at the start and is kept by each call holds behind any calls. -/
theorem callAll_keeps (P : List Statement → Reader → Prop)
    (keeps : ∀ given r c, P given r → P (given ++ (r.call c).1) (r.call c).2)
    (source : Text) (h : P [] (start source)) (calls : List Call) :
    P ((start source).callAll calls).1 ((start source).callAll calls).2 := by
  have run : ∀ given r, P given r → P (given ++ (r.callAll calls).1) (r.callAll calls).2 := by
    induction calls with
    | nil =>
      intro given r hr
      simpa [callAll] using hr
    | cons c cs ih =>
      intro given r hr
      have hc := ih _ _ (keeps given r c hr)
      rwa [List.append_assoc] at hc
  exact run [] (start source) h

/-- Nothing is left to read and nothing waits. -/
structure Spent (r : Reader) : Prop where
  index : r.index = r.source.length
  queued : r.queued = []

theorem consume_spent (r : Reader) (h : r.Spent) : r.consume = (.ending [] 0, r) := by
  have hi := h.index
  have hq := h.queued
  obtain ⟨source, index, line, faults, queued⟩ := r
  simp only at hi hq
  subst hi hq
  simp [consume, rest, lexemes_nil, readFirst, read, Draft.stop_empty]

theorem drain_spent (r : Reader) (h : r.Spent) : r.drain = ([], r) := by
  have hi := h.index
  have hq := h.queued
  obtain ⟨source, index, line, faults, queued⟩ := r
  simp only at hi hq
  subst hi hq
  simp [drain, rest, lexemes_nil, read, Draft.stop_empty]

theorem spent_drain (r : Reader) : r.drain.2.Spent := ⟨rfl, rfl⟩

theorem after_spent (r : Reader) (h : r.Spent) (n : Nat) :
    r.after n = r ∧ r.taken n = List.replicate n (.ending [] 0) := by
  induction n with
  | zero => exact ⟨rfl, rfl⟩
  | succ n ih =>
    rw [after, taken, consume_spent r h]
    exact ⟨ih.1, congrArg _ ih.2⟩

/-- What a reader that has nothing in its queue reads up to its next pause. -/
def pause (r : Reader) : Pause := readFirst r.line Draft.empty (lexemes 0 r.rest)

theorem consume_fresh (r : Reader) (h : r.queued = []) :
    r.consume = (r.pause.statements.headD (.ending [] 0),
      { r with
        index := r.index + r.pause.width
        line := r.pause.line
        faults := r.faults ++ r.pause.faults
        queued := r.pause.statements.tail }) := by
  rw [consume, h]
  rfl

theorem pause_width_le (r : Reader) : r.pause.width ≤ r.rest.length := by
  have h := readFirst_width_le r.line Draft.empty (lexemes 0 r.rest)
  rwa [lexemes_source] at h

theorem pause_silent (r : Reader) (h : r.pause.statements = []) :
    r.pause.width = r.rest.length := by
  have hw := readFirst_silent r.line Draft.empty (lexemes 0 r.rest) h
  rwa [lexemes_source] at hw

theorem pause_paid (r : Reader) : r.pause.statements.length ≤ r.pause.width :=
  Nat.le_trans (readFirst_paid r.line Draft.empty (lexemes 0 r.rest)) (Nat.zero_add _).le

theorem pause_width_pos (r : Reader) (h : r.rest ≠ []) : 0 < r.pause.width := by
  apply readFirst_width_pos
  intro hx
  have hs := lexemes_source 0 r.rest
  rw [hx] at hs
  exact h hs.symm

/-- An ending is given out only where nothing is left behind it. -/
theorem spent_of_ending (r : Reader) (hw : r.Waits) (hi : r.index ≤ r.source.length)
    (h : r.consume.1.isEnding = true) :
    r.consume.1 = .ending [] 0 ∧ r.consume.2.Spent := by
  rcases hw with hq | ⟨n, hq⟩
  · rw [consume_fresh r hq] at h ⊢
    have hp := readFirst_proper r.line Draft.empty (lexemes 0 r.rest)
    cases hs : r.pause.statements with
    | nil =>
      have hl : r.rest.length = r.source.length - r.index := List.length_drop
      have hw := pause_silent r hs
      refine ⟨rfl, ?_, rfl⟩
      simp only
      omega
    | cons s ss =>
      have hn := hp s (by
        change s ∈ r.pause.statements
        simp [hs])
      rw [hs] at h
      exact absurd h (by simp [hn])
  · rw [consume, hq] at h
    exact absurd h (by simp [Statement.isEnding])

/-! ## What any calls leave -/

/-- A reader behind calls that gave out these statements. The statements given out and those that
wait are paid for by the characters that have been read. -/
structure Reached (source : Text) (given : List Statement) (r : Reader) : Prop where
  source_eq : r.source = Text.unifyBreaks source
  waits : r.Waits
  index_le : r.index ≤ r.source.length
  paid : (given.filter (!·.isEnding)).length + r.queued.length ≤ r.index

theorem reached_start (source : Text) : Reached source [] (start source) :=
  ⟨rfl, Or.inl rfl, Nat.zero_le _, Nat.le_refl 0⟩

theorem reached_next (source : Text) (given : List Statement) (r : Reader)
    (h : Reached source given r) : Reached source given r.next.2 := by
  rw [next]
  split
  · exact h
  · next c hc =>
    have hl := (List.getElem?_eq_some_iff.mp hc).1
    exact ⟨h.source_eq, h.waits, hl, Nat.le_succ_of_le h.paid⟩

theorem index_consume_le (r : Reader) (h : r.index ≤ r.source.length) :
    r.consume.2.index ≤ r.consume.2.source.length := by
  rw [consume_source]
  cases hq : r.queued with
  | nil =>
    have hl : r.rest.length = r.source.length - r.index := List.length_drop
    have hw := pause_width_le r
    rw [consume_fresh r hq]
    simp only
    omega
  | cons t ts =>
    rw [consume, hq]
    exact h

theorem reached_consume (source : Text) (given : List Statement) (r : Reader)
    (h : Reached source given r) :
    Reached source (given ++ [r.consume.1]) r.consume.2 := by
  have hp := h.paid
  refine ⟨(consume_source r).trans h.source_eq, waits_consume r h.waits,
    index_consume_le r h.index_le, ?_⟩
  rw [List.filter_append, List.length_append]
  rcases h.waits with hq | ⟨n, hq⟩
  · have hs := pause_paid r
    rw [hq] at hp
    rw [consume_fresh r hq]
    cases ht : r.pause.statements with
    | nil => exact Nat.le_trans hp (Nat.le_add_right _ _)
    | cons s ss =>
      have hone := List.length_filter_le (fun t : Statement => !t.isEnding) [s]
      rw [ht] at hs
      simp only [List.headD_cons, List.tail_cons, List.length_cons, List.length_nil] at hone hp hs ⊢
      omega
  · rw [hq] at hp
    rw [consume, hq]
    exact hp

/-- The next statement waits already, or it costs a character, or nothing is left. -/
theorem consume_cases (r : Reader) (hw : r.Waits) (hi : r.index ≤ r.source.length) :
    (∃ line, r.queued = [.closing line] ∧
      r.consume = (.closing line, { r with queued := [] })) ∨
    (r.queued = [] ∧ r.index < r.consume.2.index) ∨ r.Spent := by
  rcases hw with hq | ⟨n, hq⟩
  · right
    by_cases hr : r.rest = []
    · exact Or.inr ⟨Nat.le_antisymm hi (List.drop_eq_nil_iff.mp hr), hq⟩
    · have hp := pause_width_pos r hr
      refine Or.inl ⟨hq, ?_⟩
      rw [consume_fresh r hq]
      exact Nat.lt_add_of_pos_right hp
  · exact Or.inl ⟨n, hq, by rw [consume, hq]⟩

/-- What is still to be done shrinks with every statement but an ending. -/
theorem consume_shorter (r : Reader) (hw : r.Waits) (hi : r.index ≤ r.source.length)
    (h : r.consume.1.isEnding = false) :
    2 * r.consume.2.rest.length + r.consume.2.queued.length <
      2 * r.rest.length + r.queued.length := by
  have hl : r.rest.length = r.source.length - r.index := List.length_drop
  have hl' : r.consume.2.rest.length = r.source.length - r.consume.2.index := by
    rw [rest, List.length_drop, consume_source]
  have hi' := index_consume_le r hi
  rw [consume_source] at hi'
  rcases consume_cases r hw hi with ⟨n, hq, hc⟩ | ⟨hq, hlt⟩ | hs
  · rw [hc, hq]
    exact Nat.lt_succ_self _
  · have hone : r.consume.2.queued.length ≤ 1 := by
      rcases waits_consume r hw with hq' | ⟨n, hq'⟩ <;> simp [hq']
    omega
  · rw [consume_spent r hs] at h
    exact absurd h (by simp [Statement.isEnding])

/-- Reading to the end is reading statement by statement until an ending comes. -/
theorem until_drain (r : Reader) (hw : r.Waits) (hi : r.index ≤ r.source.length) :
    Until consume r r.drain.1 r.drain.2 := by
  obtain ⟨m, hm⟩ : ∃ m, 2 * r.rest.length + r.queued.length = m := ⟨_, rfl⟩
  induction m using Nat.strong_induction_on generalizing r with
  | _ m ih =>
    obtain ⟨hd, he⟩ := drain_consume r hw
    cases hs : r.consume.1.isEnding with
    | true =>
      have hd' := drain_spent _ (spent_of_ending r hw hi hs).2
      rw [hd, he, hd']
      simpa [hs] using Until.ended r hs
    | false =>
      have hlt := consume_shorter r hw hi hs
      have hi' := index_consume_le r hi
      rw [hm] at hlt
      rw [hd, he]
      simpa [hs] using Until.more r _ _ hs (ih _ hlt r.consume.2 (waits_consume r hw) hi' rfl)

/-- What is kept by each statement, and does not depend on an ending, is kept by reading to the
end. -/
theorem drain_keeps (P : List Statement → Reader → Prop)
    (keeps : ∀ given r, P given r → P (given ++ [r.consume.1]) r.consume.2)
    (forgets : ∀ given r, P (given ++ [.ending [] 0]) r → P given r)
    (given : List Statement) (r : Reader) (hw : r.Waits) (hi : r.index ≤ r.source.length)
    (h : P given r) : P (given ++ r.drain.1) r.drain.2 := by
  have hu := until_drain r hw hi
  generalize r.drain.1 = ss at hu
  generalize r.drain.2 = e at hu
  induction hu generalizing given with
  | ended s hs =>
    rw [List.append_nil]
    have hk := keeps given s h
    rw [(spent_of_ending s hw hi hs).1] at hk
    exact forgets given _ hk
  | more s e ss hs _ ih =>
    have hi' := index_consume_le s hi
    have hk := ih (given ++ [s.consume.1]) (waits_consume s hw) hi' (keeps given s h)
    rwa [List.append_assoc] at hk

theorem reached_of_ending (source : Text) (given : List Statement) (r : Reader)
    (h : Reached source (given ++ [.ending [] 0]) r) : Reached source given r := by
  have hp := h.paid
  rw [List.filter_append] at hp
  exact ⟨h.source_eq, h.waits, h.index_le, by simpa [Statement.isEnding] using hp⟩

theorem reached_call (source : Text) (given : List Statement) (r : Reader) (c : Call)
    (h : Reached source given r) : Reached source (given ++ (r.call c).1) (r.call c).2 := by
  cases c with
  | peek amount => simpa [call] using h
  | next => simpa [call] using reached_next source given r h
  | consume => exact reached_consume source given r h
  | drain =>
    exact drain_keeps (Reached source) (reached_consume source) (reached_of_ending source) given r
      h.waits h.index_le h

theorem reached_callAll (source : Text) (calls : List Call) :
    Reached source ((start source).callAll calls).1 ((start source).callAll calls).2 :=
  callAll_keeps (Reached source) (reached_call source) source (reached_start source) calls

end Reader

/-! ## The draft at hand -/

/-- The draft that is left where reading pauses. -/
def draftLeft (line : Int) (d : Draft) : List Lexeme → Draft
  | [] => (d.stop line).draft
  | x :: xs =>
    let o := d.step line x
    match o.statements with
    | [] => draftLeft (line + x.breaks) o.draft xs
    | _ => o.draft

/-- A reader with the draft that it has at hand between two calls. -/
structure Desk where
  reader : Reader
  draft : Draft
  deriving DecidableEq, Repr

/-- Moves past one statement, going on with the draft at hand. -/
def Desk.consume (k : Desk) : Statement × Desk :=
  match k.reader.queued with
  | t :: ts => (t, { k with reader := { k.reader with queued := ts } })
  | [] =>
    let xs := lexemes k.draft.depth k.reader.rest
    let p := readFirst k.reader.line k.draft xs
    (p.statements.headD (.ending [] 0),
      { reader := { k.reader with
          index := k.reader.index + p.width
          line := p.line
          faults := k.reader.faults ++ p.faults
          queued := p.statements.tail }
        draft := draftLeft k.reader.line k.draft xs })

theorem draftLeft_eq (line : Int) (d : Draft) (xs : List Lexeme) :
    draftLeft line d xs = Draft.empty := by
  induction xs generalizing line d with
  | nil => rfl
  | cons x xs ih =>
    rw [draftLeft]
    split
    · exact ih _ _
    · next hs => exact Draft.step_draft_of_statements d line x hs

/-- Every statement leaves the draft empty and every bracket closed. -/
theorem Desk.consume_empty (r : Reader) :
    Desk.consume ⟨r, Draft.empty⟩ = (r.consume.1, ⟨r.consume.2, Draft.empty⟩) := by
  cases hq : r.queued with
  | cons t ts => rw [Desk.consume, Reader.consume, hq]
  | nil =>
    rw [Desk.consume, Reader.consume, hq]
    simp only [draftLeft_eq]
    rfl

theorem Desk.until_empty (r e : Reader) (given : List Statement)
    (h : Until Reader.consume r given e) :
    Until Desk.consume ⟨r, Draft.empty⟩ given ⟨e, Draft.empty⟩ := by
  induction h with
  | ended s hs =>
    have hu : Until Desk.consume ⟨s, Draft.empty⟩ [] (Desk.consume ⟨s, Draft.empty⟩).2 :=
      .ended _ (by rwa [Desk.consume_empty])
    rwa [Desk.consume_empty] at hu
  | more s e ss hs _ ih =>
    have hu : Until Desk.consume ⟨s, Draft.empty⟩ ((Desk.consume ⟨s, Draft.empty⟩).1 :: ss)
        ⟨e, Draft.empty⟩ :=
      .more _ _ ss (by rwa [Desk.consume_empty]) (by rwa [Desk.consume_empty])
    rwa [Desk.consume_empty] at hu

namespace Reader

/-- Reading comes to an end. Behind any calls, the next statement waits already, or it costs at
least one character, or the source is at its end; the draft at hand is empty between statements.
Statement by statement the reader comes to the end of the source with nothing waiting and the draft
empty, and all the statements it has given out are no more than the characters of the source. From
there on it gives out endings and stays as it is. -/
theorem reading_comes_to_an_end (source : Text) (calls : List Call) :
    let given := ((start source).callAll calls).1
    let r := ((start source).callAll calls).2
    let length := (Text.unifyBreaks source).length
    ((∃ line, r.queued = [.closing line] ∧
        r.consume = (.closing line, { r with queued := [] })) ∨
      (r.queued = [] ∧ r.index < r.consume.2.index) ∨
      (r.queued = [] ∧ r.index = length ∧ r.consume = (.ending [] 0, r))) ∧
    Desk.consume ⟨r, Draft.empty⟩ = (r.consume.1, ⟨r.consume.2, Draft.empty⟩) ∧
    Until Desk.consume ⟨r, Draft.empty⟩ r.drain.1 ⟨r.drain.2, Draft.empty⟩ ∧
    r.drain.2.index = length ∧ r.drain.2.queued = [] ∧
    (given.filter (!·.isEnding)).length + r.drain.1.length ≤ length ∧
    ∀ n, r.drain.2.after n = r.drain.2 ∧
      r.drain.2.taken n = List.replicate n (.ending [] 0) := by
  intro given r length
  have h : Reached source given r := reached_callAll source calls
  have hd : Reached source (given ++ r.drain.1) r.drain.2 := reached_call source given r .drain h
  have he : r.drain.2.Spent := spent_drain r
  have hl : r.source.length = length := congrArg List.length h.source_eq
  have hu : Until consume r r.drain.1 r.drain.2 := until_drain r h.waits h.index_le
  refine ⟨?_, Desk.consume_empty r, Desk.until_empty _ _ _ hu, hl, rfl, ?_, after_spent _ he⟩
  · rcases consume_cases r h.waits h.index_le with hc | hc | hc
    · exact Or.inl hc
    · exact Or.inr (Or.inl hc)
    · exact Or.inr (Or.inr ⟨hc.queued, hc.index.trans hl, consume_spent r hc⟩)
  · have hp := hd.paid
    rw [List.filter_append, List.length_append, hu.proper, he.index, hd.source_eq] at hp
    exact Nat.le_of_add_right_le hp

end Reader

end NestedCss.Scan
