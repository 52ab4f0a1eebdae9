import NestedCss.Proofs.Progress

/-!
# Lines are told as they are

A reader counts the line breaks that it passes, whether it passes them character by character or
statement by statement. A block carries the line of its brace and a declaration the line on which it
ends. So the statements come out in the order of their lines, and so do the faults, though a fault
tells where a string or a comment began and a closing brace may wait while the reader moves on.
-/

set_option autoImplicit false

namespace NestedCss.Scan

/-! ## Places and their lines -/

/-- The line of a place in a text that begins on a line. -/
def lineFrom (line : Int) (t : Text) (place : Nat) : Int := line + (t.take place).count '\n'

theorem lineFrom_append (line : Int) (t u : Text) (place : Nat) :
    lineFrom line (t ++ u) (t.length + place) = lineFrom (line + t.count '\n') u place := by
  rw [lineFrom, lineFrom, List.take_length_add_append, List.count_append]
  omega

theorem lineFrom_mono (line : Int) (t : Text) (p q : Nat) (h : p ≤ q) :
    lineFrom line t p ≤ lineFrom line t q := by
  have hc : (t.take p).count '\n' ≤ (t.take q).count '\n' :=
    (List.take_sublist_take_left h).count_le '\n'
  simp only [lineFrom]
  omega

/-- The statement ends at a place of a text that begins on a line, and carries the line of that
place. A block ends at its brace; a declaration ends at its semicolon, at the brace that closes the
block around it, or with the text. -/
def EndsAt (line : Int) (t : Text) (place : Nat) : Statement → Prop
  | .opening _ n => t[place]? = some '{' ∧ n = lineFrom line t place
  | .closing n => t[place]? = some '}' ∧ n = lineFrom line t place
  | .declaration d =>
    (t[place]? = some ';' ∨ t[place]? = some '}' ∨ place = t.length) ∧
      d.line = lineFrom line t place
  | .ending _ _ => place = t.length
  | .bare _ _ => False

theorem EndsAt.append {line : Int} {u : Text} {place : Nat} {s : Statement} (t : Text)
    (h : EndsAt (line + t.count '\n') u place s) : EndsAt line (t ++ u) (t.length + place) s := by
  have hg : (t ++ u)[t.length + place]? = u[place]? := by
    rw [List.getElem?_append_right (Nat.le_add_right _ _), Nat.add_sub_cancel_left]
  cases s with
  | ending _ _ => exact (congrArg _ h).trans List.length_append.symm
  | bare _ _ => exact h
  | _ => simpa [EndsAt, hg, lineFrom_append] using h

theorem EndsAt.place_le {line : Int} {t : Text} {place : Nat} {s : Statement}
    (h : EndsAt line t place s) : place ≤ t.length := by
  have inside : ∀ c, t[place]? = some c → place ≤ t.length := fun c hc =>
    (List.getElem?_eq_some_iff.mp hc).1.le
  cases s with
  | opening _ _ => exact inside _ h.1
  | closing _ => exact inside _ h.1
  | declaration d =>
    rcases h.1 with hc | hc | hc
    · exact inside _ hc
    · exact inside _ hc
    · exact hc.le
  | ending _ _ => exact Nat.le_of_eq h
  | bare _ _ => exact absurd h id

theorem EndsAt.line_eq {line : Int} {t : Text} {place : Nat} {s : Statement}
    (h : EndsAt line t place s) (hs : s.isEnding = false) : s.line = lineFrom line t place := by
  cases s with
  | ending _ _ => exact absurd hs (by simp [Statement.isEnding])
  | bare _ _ => exact absurd h id
  | _ => exact h.2

/-- Statements in the order of the places where they end are in the order of their lines. -/
theorem lines_pairwise (line : Int) (t : Text) (ends : List (Nat × Statement))
    (h : ∀ e ∈ ends, EndsAt line t e.1 e.2) (ho : ends.Pairwise fun a b => a.1 ≤ b.1) :
    (((ends.map Prod.snd).filter (!·.isEnding)).map Statement.line).Pairwise (· ≤ ·) := by
  rw [List.pairwise_map, List.pairwise_filter, List.pairwise_map]
  refine ho.imp_of_mem fun {a b} ha hb hab hna hnb => ?_
  rw [(h a ha).line_eq (by simpa using hna), (h b hb).line_eq (by simpa using hnb)]
  exact lineFrom_mono line t a.1 b.1 hab

/-! ## Faults in order -/

/-- The faults stand on lines in order, none before the first line given or behind the second. -/
def InOrder (low high : Int) (fs : List Fault) : Prop :=
  ∃ lines : List Int, fs.map Fault.line = lines.map some ∧ lines.Pairwise (· ≤ ·) ∧
    ∀ n ∈ lines, low ≤ n ∧ n ≤ high

theorem inOrder_nil (low high : Int) : InOrder low high [] :=
  ⟨[], rfl, List.Pairwise.nil, by simp⟩

theorem inOrder_on (line : Int) (fs : List Fault) (h : ∀ f ∈ fs, f.line = some line) :
    InOrder line line fs := by
  refine ⟨List.replicate fs.length line, ?_, ?_, ?_⟩
  · rw [List.map_replicate]
    exact List.eq_replicate_iff.mpr ⟨List.length_map _, by simpa using h⟩
  · exact List.pairwise_replicate.mpr (Or.inr (Int.le_refl _))
  · intro n hn
    rw [List.eq_of_mem_replicate hn]
    exact ⟨Int.le_refl _, Int.le_refl _⟩

theorem InOrder.mono {a b c d : Int} {fs : List Fault} (h : InOrder b c fs) (hab : a ≤ b)
    (hcd : c ≤ d) : InOrder a d fs := by
  obtain ⟨lines, hl, ho, hb⟩ := h
  exact ⟨lines, hl, ho, fun n hn => ⟨Int.le_trans hab (hb n hn).1, Int.le_trans (hb n hn).2 hcd⟩⟩

theorem InOrder.append {a b c : Int} {fs gs : List Fault} (hab : a ≤ b) (hbc : b ≤ c)
    (hf : InOrder a b fs) (hg : InOrder b c gs) : InOrder a c (fs ++ gs) := by
  obtain ⟨ls, hl, hlo, hlb⟩ := hf
  obtain ⟨ms, hm, hmo, hmb⟩ := hg
  refine ⟨ls ++ ms, by rw [List.map_append, List.map_append, hl, hm], ?_, ?_⟩
  · refine List.pairwise_append.mpr ⟨hlo, hmo, fun x hx y hy => ?_⟩
    exact Int.le_trans (hlb x hx).2 (hmb y hy).1
  · intro n hn
    rcases List.mem_append.mp hn with hn | hn
    · exact ⟨(hlb n hn).1, Int.le_trans (hlb n hn).2 hbc⟩
    · exact ⟨Int.le_trans hab (hmb n hn).1, (hmb n hn).2⟩

namespace Draft

variable (d : Draft) (line : Int)

theorem bracketFaults_line : ∀ f ∈ d.bracketFaults line, f.line = some line := by
  intro f hf
  rw [bracketFaults] at hf
  split at hf
  · rw [List.mem_singleton.mp hf]
  · exact absurd hf List.not_mem_nil

theorem step_faults_line (x : Lexeme) : ∀ f ∈ (d.step line x).faults, f.line = some line := by
  cases x with
  | mark c =>
    have hb := d.bracketFaults_line line
    simp only [step]
    fun_cases mark d line c
    · simp
    · simp
    · exact hb
    · exact hb
    · simp
    · simp
  | quotation q body ending => cases ending <;> simp [step, stringFaults]
  | blockComment body closed => cases closed <;> simp [step]
  | _ => simp [step]

theorem stop_faults_line : ∀ f ∈ (d.stop line).faults, f.line = some line := by
  intro f hf
  rcases List.mem_append.mp hf with hf | hf
  · exact d.bracketFaults_line line f hf
  · obtain ⟨_, -, rfl⟩ := List.mem_map.mp hf
    rfl

theorem declarations_end (t : Text) (place : Nat)
    (hp : t[place]? = some ';' ∨ t[place]? = some '}' ∨ place = t.length) :
    ∀ s ∈ d.declarations (lineFrom line t place), EndsAt line t place s := by
  intro s hs
  obtain ⟨e, he, rfl⟩ := List.mem_map.mp hs
  rw [declaration?] at he
  split at he
  · exact absurd he (by simp)
  · obtain rfl : e = _ := by simpa using he
    exact ⟨hp, rfl⟩

/-- A statement ends at the mark that completes it. -/
theorem step_ends (x : Lexeme) (t : Text) :
    ∀ s ∈ (d.step line x).statements, EndsAt line (x.source ++ t) 0 s := by
  have hl : ∀ u : Text, lineFrom line u 0 = line := by simp [lineFrom]
  cases x with
  | mark c =>
    have hd := d.declarations_end line (c :: t) 0
    rw [hl] at hd
    simp only [step, Lexeme.source, List.singleton_append]
    fun_cases mark d line c with
    | case1 => simp
    | case2 => simp
    | case3 _ _ ho =>
      obtain rfl : c = '{' := by simpa using ho
      simp [EndsAt, hl]
    | case4 _ _ _ hc =>
      obtain rfl : c = '}' := by simpa using hc
      intro s hs
      rcases List.mem_append.mp hs with hs | hs
      · exact hd (Or.inr (Or.inl rfl)) s hs
      · rw [List.mem_singleton.mp hs]
        exact ⟨rfl, (hl _).symm⟩
    | case5 _ _ _ _ hs =>
      obtain ⟨rfl, -⟩ : c = ';' ∧ d.depth = 0 := by simpa using hs
      exact hd (Or.inl rfl)
    | case6 => simp
  | _ => simp [step]

end Draft

/-! ## Pauses -/

/-- A pause comes right behind the place where its statements end, or where the text ends, and on
the line of the pause. -/
theorem readFirst_ends (line : Int) (d : Draft) (xs : List Lexeme) :
    let t := xs.flatMap Lexeme.source
    let p := readFirst line d xs
    p.line = lineFrom line t p.width ∧
    (∃ place, p.width = min (place + 1) t.length ∧
      (∀ s ∈ p.statements, EndsAt line t place s) ∧ (p.statements = [] → place = t.length)) ∧
    InOrder line p.line p.faults := by
  induction xs generalizing line d with
  | nil =>
    have hd := d.declarations_end line [] 0 (Or.inr (Or.inr rfl))
    rw [show lineFrom line [] 0 = line by simp [lineFrom]] at hd
    refine ⟨by simp [readFirst, read, lineFrom], ⟨0, rfl, hd, fun _ => rfl⟩, ?_⟩
    exact inOrder_on line _ (d.stop_faults_line line)
  | cons x xs ih =>
    have hx := inOrder_on line _ (d.step_faults_line line x)
    have hb : line ≤ line + x.breaks := by omega
    rw [List.flatMap_cons]
    rw [readFirst]
    cases hs : (d.step line x).statements with
    | nil =>
      obtain ⟨hl, ⟨place, hw, he, hn⟩, hf⟩ := ih (line + x.breaks) (d.step line x).draft
      have hle : line + x.breaks ≤
          (readFirst (line + x.breaks) (d.step line x).draft xs).line := by
        rw [hl, lineFrom]
        omega
      simp only [Pause.prepend]
      refine ⟨?_, ⟨x.source.length + place, ?_, fun s hm => (he s hm).append x.source, ?_⟩, ?_⟩
      · rw [hl, lineFrom_append]
        rfl
      · rw [hw, List.length_append]
        omega
      · intro h
        rw [hn h, List.length_append]
      · exact InOrder.append (Int.le_refl _) (Int.le_trans hb hle) hx
          (hf.mono hb (Int.le_refl _))
    | cons s ss =>
      have he := d.step_ends line x (xs.flatMap Lexeme.source)
      rw [hs] at he
      have hone : x.source.length = 1 := by
        cases x with
        | mark c => rfl
        | _ => exact absurd hs (by simp [Draft.step])
      refine ⟨?_, ⟨0, ?_, he, by simp⟩, ?_⟩
      · simp [lineFrom, Lexeme.breaks]
      · rw [List.length_append]
        simp only
        omega
      · exact hx.mono (Int.le_refl _) hb

namespace Reader

/-- A reader that tells its line as it is. The statements it has given out and those that wait end
at places in order, all of them passed, and its faults stand in order on lines that it has seen. -/
structure Lined (source : Text) (given : List Statement) (r : Reader) : Prop extends
    Reached source given r where
  line_eq : r.line = lineFrom 1 r.source r.index
  ends : ∃ ends : List (Nat × Statement), ends.map Prod.snd = given ++ r.queued ∧
    (ends.Pairwise fun a b => a.1 ≤ b.1) ∧
    ∀ e ∈ ends, EndsAt 1 r.source e.1 e.2 ∧ e.1 ≤ r.index
  faults : InOrder 1 r.line r.faults

theorem lined_start (source : Text) : Lined source [] (start source) where
  toReached := reached_start source
  line_eq := by simp [start, lineFrom]
  ends := ⟨[], rfl, List.Pairwise.nil, by simp⟩
  faults := inOrder_nil 1 1

theorem lined_next (source : Text) (given : List Statement) (r : Reader)
    (h : Lined source given r) : Lined source given r.next.2 := by
  have hr := reached_next source given r h.toReached
  rw [next] at hr ⊢
  split at hr
  · exact h
  · next c hc =>
    obtain ⟨ends, hs, ho, he⟩ := h.ends
    refine ⟨hr, ?_, ⟨ends, hs, ho, fun e hm => ⟨(he e hm).1, Nat.le_succ_of_le (he e hm).2⟩⟩, ?_⟩
    · have hl := h.line_eq
      simp only [lineFrom, List.take_add_one, hc, List.count_append, Option.toList_some] at hl ⊢
      omega
    · exact h.faults.mono (Int.le_refl _) (by simp only; omega)

/-- The place where the statement ends that comes next out of an empty queue. The reader stops
right behind it, and what waits then ends at the same place. -/
theorem pause_ends (r : Reader) (hi : r.index ≤ r.source.length)
    (hl : r.line = lineFrom 1 r.source r.index) (hq : r.queued = []) :
    r.consume.2.line = lineFrom 1 r.source r.consume.2.index ∧
    (∃ place, r.index ≤ place ∧ r.consume.2.index = min (place + 1) r.source.length ∧
      ∀ s ∈ r.consume.1 :: r.consume.2.queued, EndsAt 1 r.source place s) ∧
    r.line ≤ r.consume.2.line ∧ InOrder r.line r.consume.2.line r.pause.faults := by
  obtain ⟨hpl, ⟨place, hw, he, hn⟩, hf⟩ := readFirst_ends r.line Draft.empty (lexemes 0 r.rest)
  rw [lexemes_source] at hpl hw he hn
  change r.pause.line = lineFrom r.line r.rest r.pause.width at hpl
  change r.pause.width = min (place + 1) r.rest.length at hw
  have ht : (r.source.take r.index).length = r.index := List.length_take_of_le hi
  have hr : r.source.take r.index ++ r.rest = r.source := List.take_append_drop ..
  have hrl : r.rest.length = r.source.length - r.index := List.length_drop
  have shift : ∀ n, lineFrom 1 r.source (r.index + n) = lineFrom r.line r.rest n := by
    intro n
    have hs := lineFrom_append 1 (r.source.take r.index) r.rest n
    rwa [hr, ht, ← lineFrom, ← hl] at hs
  have hends : ∀ s, EndsAt r.line r.rest place s → EndsAt 1 r.source (r.index + place) s := by
    intro s hs
    rw [hl] at hs
    have ha := EndsAt.append (r.source.take r.index) hs
    rwa [hr, ht] at ha
  rw [consume_fresh r hq]
  refine ⟨(shift _).symm ▸ hpl, ⟨r.index + place, Nat.le_add_right _ _, ?_, ?_⟩, ?_, hf⟩
  · simp only
    omega
  · intro s hs
    cases hst : r.pause.statements with
    | nil =>
      have hpn : place = r.rest.length := hn hst
      simp only [hst, List.headD_nil, List.tail_nil, List.mem_singleton] at hs
      subst hs
      have hend : EndsAt r.line r.rest place (.ending [] 0) := hpn
      exact hends _ hend
    | cons u us =>
      refine hends s (he s ?_)
      change s ∈ r.pause.statements
      simpa [hst] using hs
  · simp only
    rw [hpl, lineFrom]
    omega

theorem lined_consume (source : Text) (given : List Statement) (r : Reader)
    (h : Lined source given r) : Lined source (given ++ [r.consume.1]) r.consume.2 := by
  have hr := reached_consume source given r h.toReached
  obtain ⟨ends, hs, ho, he⟩ := h.ends
  cases hq : r.queued with
  | nil =>
    obtain ⟨hl, ⟨place, hp, hw, hn⟩, hle, hf⟩ := pause_ends r h.index_le h.line_eq hq
    refine ⟨hr, ?_,
      ⟨ends ++ (r.consume.1 :: r.consume.2.queued).map (Prod.mk place), ?_, ?_, ?_⟩, ?_⟩
    · rw [consume_source]
      exact hl
    · simp [hs, hq, Function.comp_def]
    · refine List.pairwise_append.mpr ⟨ho, ?_, ?_⟩
      · exact List.pairwise_map.mpr (List.pairwise_of_forall fun _ _ => Nat.le_refl _)
      · intro a ha b hb
        obtain ⟨u, -, rfl⟩ := List.mem_map.mp hb
        exact Nat.le_trans (he a ha).2 hp
    · have hi := h.index_le
      rw [consume_source, hw]
      intro e hm
      rcases List.mem_append.mp hm with hm | hm
      · obtain ⟨hea, hep⟩ := he e hm
        exact ⟨hea, by omega⟩
      · obtain ⟨u, hu, rfl⟩ := List.mem_map.mp hm
        have hpl := (hn u hu).place_le
        exact ⟨hn u hu, by simp only; omega⟩
    · have hfs : r.consume.2.faults = r.faults ++ r.pause.faults := by rw [consume_fresh r hq]
      rw [hfs]
      have hone : 1 ≤ r.line := by
        rw [h.line_eq, lineFrom]
        omega
      exact InOrder.append hone hle h.faults hf
  | cons t ts =>
    have hc : r.consume = (t, { r with queued := ts }) := by rw [consume, hq]
    rw [hq] at hs
    rw [hc] at hr ⊢
    exact ⟨hr, h.line_eq, ⟨ends, by simpa using hs, ho, he⟩, h.faults⟩

theorem lined_of_ending (source : Text) (given : List Statement) (r : Reader)
    (h : Lined source (given ++ [.ending [] 0]) r) : Lined source given r := by
  obtain ⟨ends, hs, ho, he⟩ := h.ends
  obtain ⟨front, back, rfl, hf, hb⟩ := List.map_eq_append_iff.mp hs
  obtain ⟨kept, last, rfl, hk, -⟩ := List.map_eq_append_iff.mp hf
  have hsub : (kept ++ back).Sublist (kept ++ last ++ back) :=
    (List.sublist_append_left kept last).append_right back
  refine ⟨reached_of_ending source given r h.toReached, h.line_eq, ⟨kept ++ back, ?_, ?_, ?_⟩,
    h.faults⟩
  · rw [List.map_append, hk, hb]
  · exact ho.sublist hsub
  · exact fun e hm => he e (hsub.mem hm)

theorem lined_call (source : Text) (given : List Statement) (r : Reader) (c : Call)
    (h : Lined source given r) : Lined source (given ++ (r.call c).1) (r.call c).2 := by
  cases c with
  | peek amount => simpa [call] using h
  | next => simpa [call] using lined_next source given r h
  | consume => exact lined_consume source given r h
  | drain =>
    exact drain_keeps (Lined source) (lined_consume source) (lined_of_ending source) given r
      h.waits h.index_le h

theorem lined_callAll (source : Text) (calls : List Call) :
    Lined source ((start source).callAll calls).1 ((start source).callAll calls).2 :=
  callAll_keeps (Lined source) (lined_call source) source (lined_start source) calls

/-- Lines are told as they are. Behind any calls the line is one more than the line breaks that the
reader has passed. Every statement that has been given out or waits ends at a place that has been
passed and carries the line of that place, and the places are in order. The next statement waits
already, or the reader stops right behind the place where it ends; reading to the end is reading
statement by statement. So the lines of the statements, endings aside, never go down, and the lines
of the faults never go down nor beyond the line of the reader. -/
theorem lines_are_told (source : Text) (calls : List Call) :
    let text := Text.unifyBreaks source
    let given := ((start source).callAll calls).1
    let r := ((start source).callAll calls).2
    r.line = 1 + (text.take r.index).count '\n' ∧
    (∃ ends : List (Nat × Statement), ends.map Prod.snd = given ++ r.queued ∧
      (ends.Pairwise fun a b => a.1 ≤ b.1) ∧ ∀ e ∈ ends, EndsAt 1 text e.1 e.2 ∧ e.1 ≤ r.index) ∧
    ((∃ line, r.queued = [.closing line] ∧
        r.consume = (.closing line, { r with queued := [] })) ∨
      ∃ place, r.index ≤ place ∧ r.consume.2.index = min (place + 1) text.length ∧
        ∀ s ∈ r.consume.1 :: r.consume.2.queued, EndsAt 1 text place s) ∧
    Until consume r r.drain.1 r.drain.2 ∧
    ((given.filter (!·.isEnding)).map Statement.line).Pairwise (· ≤ ·) ∧
    ∃ lines : List Int, r.faults.map Fault.line = lines.map some ∧ lines.Pairwise (· ≤ ·) ∧
      ∀ n ∈ lines, n ≤ r.line := by
  intro text given r
  have h : Lined source given r := lined_callAll source calls
  obtain ⟨ends, hs, ho, he⟩ := h.ends
  obtain ⟨lines, hl, hlo, hlb⟩ := h.faults
  have hsrc : r.source = text := h.source_eq
  have hp := lines_pairwise 1 r.source ends (fun e hm => (he e hm).1) ho
  rw [hs, List.filter_append, List.map_append] at hp
  rw [← hsrc]
  refine ⟨h.line_eq, ⟨ends, hs, ho, he⟩, ?_, until_drain r h.waits h.index_le,
    (List.pairwise_append.mp hp).1, ⟨lines, hl, hlo, fun n hn => (hlb n hn).2⟩⟩
  rcases h.waits with hq | ⟨n, hq⟩
  · exact Or.inr (pause_ends r h.index_le h.line_eq hq).2.1
  · exact Or.inl ⟨n, hq, by rw [consume, hq]⟩

end Reader

end NestedCss.Scan
