import NestedCss.Proofs.Breaks
import NestedCss.Proofs.Drafts
import NestedCss.Scan.Reader

/-!
# Statements are read by themselves

Whatever ended the last statement, a reader goes on as a fresh one would at the start of what it has
not read. So a bracket or a string that is left open is forgotten with its statement. Only the lines
tell that something came before, and a brace that closed a block behind a declaration is given out
first.
-/

set_option autoImplicit false

namespace NestedCss

/-- The statement so many lines further down. The end of a source stands on no line. -/
def Statement.lowered (k : Int) : Statement → Statement
  | .opening t n => .opening t (n + k)
  | .closing n => .closing (n + k)
  | .declaration d => .declaration ⟨d.text, d.line + k⟩
  | .ending t n => .ending t n
  | .bare t n => .bare t (n + k)

def Statement.isEnding : Statement → Bool
  | .ending _ _ => true
  | _ => false

/-- The fault so many lines further down. -/
def Fault.lowered (k : Int) (f : Fault) : Fault := { f with line := f.line.map (· + k) }

namespace Scan

/-! ## Lines further down -/

namespace Draft

variable (d : Draft) (line k : Int)

theorem declarations_lowered :
    d.declarations (line + k) = (d.declarations line).map (Statement.lowered k) := by
  simp only [declarations, declaration?]
  split <;> rfl

theorem bracketFaults_lowered :
    d.bracketFaults (line + k) = (d.bracketFaults line).map (Fault.lowered k) := by
  simp only [bracketFaults]
  split <;> rfl

theorem mark_lowered (c : Char) :
    d.mark (line + k) c = ⟨(d.mark line c).draft, (d.mark line c).faults.map (Fault.lowered k),
      (d.mark line c).statements.map (Statement.lowered k)⟩ := by
  simp only [mark, declarations_lowered, bracketFaults_lowered]
  split_ifs <;> simp [Statement.lowered]

theorem step_lowered (x : Lexeme) :
    d.step (line + k) x = ⟨(d.step line x).draft, (d.step line x).faults.map (Fault.lowered k),
      (d.step line x).statements.map (Statement.lowered k)⟩ := by
  cases x with
  | mark c => exact mark_lowered d line k c
  | quotation q body ending => cases ending <;> rfl
  | blockComment body closed => cases closed <;> rfl
  | _ => rfl

theorem stop_lowered :
    d.stop (line + k) = ⟨empty, (d.stop line).faults.map (Fault.lowered k),
      (d.stop line).statements.map (Statement.lowered k)⟩ := by
  simp only [stop, declarations_lowered, bracketFaults_lowered, declaration?, List.map_append]
  split <;> rfl

end Draft

def Reading.lowered (k : Int) (r : Reading) : Reading :=
  ⟨r.statements.map (Statement.lowered k), r.faults.map (Fault.lowered k), r.line + k⟩

theorem read_lowered (line k : Int) (d : Draft) (xs : List Lexeme) :
    read (line + k) d xs = (read line d xs).lowered k := by
  induction xs generalizing line d with
  | nil => simp [read, Reading.lowered, Draft.stop_lowered]
  | cons x xs ih =>
    have hl : line + k + x.breaks = line + x.breaks + k := by omega
    simp [read, Reading.lowered, Reading.prepend, Draft.step_lowered, hl, ih]

theorem readFirst_lowered (line k : Int) (d : Draft) (xs : List Lexeme) :
    readFirst (line + k) d xs =
      { readFirst line d xs with toReading := (readFirst line d xs).toReading.lowered k } := by
  induction xs generalizing line d with
  | nil => simp [readFirst, read_lowered]
  | cons x xs ih =>
    have hl : line + k + x.breaks = line + x.breaks + k := by omega
    rw [readFirst, readFirst, Draft.step_lowered]
    cases hs : (d.step line x).statements with
    | nil => simp [hl, ih, Pause.prepend, Reading.lowered]
    | cons t ts => simp [hl, Reading.lowered]

/-! ## The lexemes behind a pause -/

/-- A pause stands where the lexemes that have not been read begin, at no open bracket. -/
theorem lexemes_pause (n : Nat) (line : Int) (d : Draft) (t : Text) (hn : d.depth = n) :
    lexemes 0 (t.drop (readFirst line d (lexemes n t)).width) =
      (readFirst line d (lexemes n t)).rest := by
  induction n, t using lexemes.induct generalizing line d with
  | case1 n t hx =>
    obtain rfl := (next?_eq_none_iff n t).mp hx
    rw [lexemes_nil, readFirst, List.drop_nil, lexemes_nil]
  | case2 n t x r hx ih =>
    have ht := next?_source n t x r hx
    rw [lexemes_cons n t x r hx, readFirst]
    subst hn
    cases hs : (d.step line x).statements with
    | nil =>
      have hi := ih (line + x.breaks) (d.step line x).draft (Draft.depth_step d line x)
      simp only [Pause.prepend]
      rw [← ht, List.drop_length_add_append]
      exact hi
    | cons s ss =>
      have he := Draft.step_draft_of_statements d line x (by simp [hs])
      have hd : x.depthAfter d.depth = 0 := by
        rw [← Draft.depth_step d line x, he]
        rfl
      simp only
      rw [← ht, List.drop_left, hd]

/-- At most a closing brace stands behind the first statement that a lexeme ends. -/
theorem Draft.step_statements_tail (d : Draft) (line : Int) (x : Lexeme) :
    (d.step line x).statements.tail = [] ∨ (d.step line x).statements.tail = [.closing line] := by
  cases x with
  | mark c =>
    have hd : (d.declarations line).tail = [] := by
      simp only [declarations, declaration?]
      split <;> rfl
    simp only [step, mark]
    split_ifs
    · exact Or.inl rfl
    · exact Or.inl rfl
    · exact Or.inl rfl
    · simp only [declarations, declaration?]
      split
      · exact Or.inl rfl
      · exact Or.inr rfl
    · exact Or.inl hd
    · exact Or.inl rfl
  | _ => exact Or.inl rfl

theorem Draft.declarations_proper (d : Draft) (line : Int) :
    ∀ s ∈ d.declarations line, s.isEnding = false := by
  intro s hs
  obtain ⟨e, -, rfl⟩ := List.mem_map.mp hs
  rfl

theorem Draft.step_proper (d : Draft) (line : Int) (x : Lexeme) :
    ∀ s ∈ (d.step line x).statements, s.isEnding = false := by
  cases x with
  | mark c =>
    have hd := d.declarations_proper line
    simp only [step, mark]
    split_ifs
    · simp
    · simp
    · simp [Statement.isEnding]
    · intro s hs
      rcases List.mem_append.mp hs with hs | hs
      · exact hd s hs
      · rw [List.mem_singleton.mp hs]
        rfl
    · exact hd
    · simp
  | _ => simp [step]

theorem readFirst_proper (line : Int) (d : Draft) (xs : List Lexeme) :
    ∀ s ∈ (readFirst line d xs).statements, s.isEnding = false := by
  induction xs generalizing line d with
  | nil => exact d.declarations_proper line
  | cons x xs ih =>
    have hx := Draft.step_proper d line x
    rw [readFirst]
    cases hs : (d.step line x).statements with
    | nil => exact ih (line + x.breaks) (d.step line x).draft
    | cons s ss =>
      rw [hs] at hx
      exact hx

theorem readFirst_statements_tail (line : Int) (d : Draft) (xs : List Lexeme) :
    (readFirst line d xs).statements.tail = [] ∨
      ∃ n, (readFirst line d xs).statements.tail = [.closing n] := by
  induction xs generalizing line d with
  | nil =>
    left
    simp only [readFirst, read, Draft.stop, Draft.declarations, Draft.declaration?]
    split <;> rfl
  | cons x xs ih =>
    have ht := Draft.step_statements_tail d line x
    rw [readFirst]
    cases hs : (d.step line x).statements with
    | nil => exact ih (line + x.breaks) (d.step line x).draft
    | cons s ss =>
      rw [hs] at ht
      exact ht.imp id fun h => ⟨line, h⟩

/-! ## Readers that go on -/

namespace Reader

/-- The reader behind so many more statements. -/
def after (r : Reader) : Nat → Reader
  | 0 => r
  | n + 1 => r.consume.2.after n

/-- The next so many statements, with an ending for each that is not there. -/
def taken (r : Reader) : Nat → List Statement
  | 0 => []
  | n + 1 => r.consume.1 :: r.consume.2.taken n

/-- A reader of what is left of another reader's source, standing in the whole source. -/
def within (r g : Reader) : Reader where
  source := r.source
  index := r.index + g.index
  line := g.line + (r.line - 1)
  faults := r.faults ++ g.faults.map (Fault.lowered (r.line - 1))
  queued := g.queued.map (Statement.lowered (r.line - 1))

theorem consume_source (r : Reader) : r.consume.2.source = r.source := by
  rw [consume]
  split <;> rfl

theorem source_after (r : Reader) (n : Nat) : (r.after n).source = r.source := by
  induction n generalizing r with
  | zero => rfl
  | succ n ih => rw [after, ih, consume_source]

theorem rest_within (r g : Reader) (h : g.source = r.rest) : (r.within g).rest = g.rest := by
  simp only [rest, within] at h ⊢
  rw [h, List.drop_drop]

theorem consume_within (r g : Reader) (h : g.source = r.rest) :
    (r.within g).consume =
      (g.consume.1.lowered (r.line - 1), r.within g.consume.2) := by
  cases hq : g.queued with
  | cons t ts =>
    rw [consume, consume, hq]
    simp [within, hq]
  | nil =>
    have hr := rest_within r g h
    have hw : (r.within g).queued = [] := by simp [within, hq]
    rw [consume, consume, hw, hq]
    simp only [hr]
    have hl : (r.within g).line = g.line + (r.line - 1) := rfl
    rw [hl, readFirst_lowered]
    refine Prod.ext ?_ ?_
    · cases hs : (readFirst g.line Draft.empty (lexemes 0 g.rest)).statements <;>
        simp [Reading.lowered, hs, Statement.lowered]
    · simp [within, Reading.lowered, List.map_tail, Nat.add_assoc]

theorem after_within (r g : Reader) (h : g.source = r.rest) (m : Nat) :
    (r.within g).after m = r.within (g.after m) := by
  induction m generalizing g with
  | zero => rfl
  | succ m ih =>
    rw [after, after, consume_within r g h]
    exact ih g.consume.2 (by rw [consume_source, h])

theorem taken_within (r g : Reader) (h : g.source = r.rest) (m : Nat) :
    (r.within g).taken m = (g.taken m).map (Statement.lowered (r.line - 1)) := by
  induction m generalizing g with
  | zero => rfl
  | succ m ih =>
    rw [taken, taken, consume_within r g h, List.map_cons]
    exact congrArg _ (ih g.consume.2 (by rw [consume_source, h]))

/-- A reader whose line breaks are all unified. -/
def Plain (r : Reader) : Prop := ∀ c ∈ r.source, Text.Plain c

theorem plain_start (source : Text) : (start source).Plain := Text.plain_unifyBreaks source

theorem start_rest (r : Reader) (h : r.Plain) : start r.rest = ⟨r.rest, 0, 1, [], []⟩ := by
  rw [start, Text.unifyBreaks_plain r.rest fun c hc => h c (List.mem_of_mem_drop hc)]

/-- A reader with nothing in its queue is a fresh reader of what it has not read. -/
theorem within_start (r : Reader) (h : r.Plain) (hq : r.queued = []) :
    r.within (start r.rest) = r := by
  obtain ⟨source, index, line, faults, queued⟩ := r
  have hl : 1 + (line - 1) = line := by omega
  obtain rfl : queued = [] := hq
  rw [start_rest _ h]
  simp [within, hl]

/-- At most one closing brace waits. -/
def Waits (r : Reader) : Prop := r.queued = [] ∨ ∃ n, r.queued = [.closing n]

theorem waits_consume (r : Reader) (h : r.Waits) : r.consume.2.Waits := by
  rcases h with hq | ⟨n, hq⟩
  · rw [consume, hq]
    exact readFirst_statements_tail r.line Draft.empty _
  · rw [consume, hq]
    exact Or.inl rfl

theorem waits_after (r : Reader) (h : r.Waits) (n : Nat) : (r.after n).Waits := by
  induction n generalizing r with
  | zero => exact h
  | succ n ih => exact ih r.consume.2 (waits_consume r h)

/-- A reader goes on with its queue and then as a fresh reader of what it has not read. -/
theorem goes_on (r : Reader) (hp : r.Plain) (hw : r.Waits) (m : Nat) :
    r.after (r.queued.length + m) = r.within ((start r.rest).after m) ∧
    r.taken (r.queued.length + m) =
      r.queued ++ ((start r.rest).taken m).map (Statement.lowered (r.line - 1)) := by
  have fresh : ∀ s : Reader, s.Plain → s.queued = [] →
      s.after m = s.within ((start s.rest).after m) ∧
      s.taken m = ((start s.rest).taken m).map (Statement.lowered (s.line - 1)) := by
    intro s hs hq
    have he := within_start s hs hq
    have hr : (start s.rest).source = s.rest := by rw [start_rest s hs]
    refine ⟨?_, ?_⟩
    · rw [← after_within s _ hr, he]
    · rw [← taken_within s _ hr, he]
  rcases hw with hq | ⟨n, hq⟩
  · have hf := fresh r hp hq
    simpa [hq] using hf
  · have hc : r.consume = (.closing n, { r with queued := [] }) := by rw [consume, hq]
    have hf := fresh { r with queued := [] } hp rfl
    have hl : r.queued.length + m = m + 1 := by
      rw [hq]
      exact Nat.add_comm 1 m
    rw [hl, after, taken, hc, hq]
    exact ⟨hf.1, congrArg _ hf.2⟩

/-- What a call gives out, and behind it what is read to the end, is what is read to the end at
once. -/
theorem drain_consume (r : Reader) (h : r.Waits) :
    r.drain.1 = [r.consume.1].filter (!·.isEnding) ++ r.consume.2.drain.1 ∧
      r.drain.2 = r.consume.2.drain.2 := by
  rcases h with hq | ⟨n, hq⟩
  · have hp := lexemes_pause 0 r.line Draft.empty r.rest rfl
    have hs := readFirst_proper r.line Draft.empty (lexemes 0 r.rest)
    have hr := read_eq_readFirst r.line Draft.empty (lexemes 0 r.rest)
    have hd : r.consume.2.rest =
        r.rest.drop (readFirst r.line Draft.empty (lexemes 0 r.rest)).width := by
      simp only [consume, hq, rest, List.drop_drop]
    rw [drain, drain, hd, hp, hr]
    simp only [consume, hq]
    generalize readFirst r.line Draft.empty (lexemes 0 r.rest) = p at hs
    cases hst : p.statements with
    | nil => simp [Reading.prepend, Statement.isEnding]
    | cons s ss =>
      have hn : s.isEnding = false := hs s (by simp [hst])
      simp [Reading.prepend, hn]
  · simp [drain, consume, hq, Statement.isEnding, rest]

theorem drain_taken (r : Reader) (h : r.Waits) (n : Nat) :
    r.drain.1 = (r.taken n).filter (!·.isEnding) ++ (r.after n).drain.1 ∧
      r.drain.2 = (r.after n).drain.2 := by
  induction n generalizing r with
  | zero => exact ⟨rfl, rfl⟩
  | succ n ih =>
    obtain ⟨h₁, h₂⟩ := drain_consume r h
    obtain ⟨h₃, h₄⟩ := ih r.consume.2 (waits_consume r h)
    refine ⟨?_, h₂.trans h₄⟩
    rw [h₁, h₃, ← List.append_assoc, ← List.filter_append]
    rfl

/-- Reading to the end gives the queue and then what a fresh reader gives. -/
theorem drain_eq (r : Reader) (hp : r.Plain) :
    r.drain.1 =
        r.queued ++ (readSource r.rest).statements.map (Statement.lowered (r.line - 1)) ∧
      r.drain.2.faults =
        r.faults ++ (readSource r.rest).faults.map (Fault.lowered (r.line - 1)) := by
  have hl : 1 + (r.line - 1) = r.line := by omega
  have hr : read r.line Draft.empty (lexemes 0 r.rest) =
      (readSource r.rest).lowered (r.line - 1) := by
    have hs := read_lowered 1 (r.line - 1) Draft.empty (lexemes 0 r.rest)
    rw [hl] at hs
    rw [readSource, Text.unifyBreaks_plain r.rest fun c hc => hp c (List.mem_of_mem_drop hc)]
    exact hs
  rw [drain, hr]
  exact ⟨rfl, rfl⟩

/-- Behind any number of calls a reader gives out a closing brace, if one waits, and then goes on
call by call as a fresh reader of what it has not read, so many lines further down. What the calls
have given out and what is still to come is together what the source is read as in one go. -/
theorem later_statements_are_local (source : Text) (n : Nat) :
    let r := (start source).after n
    let lines := r.line - 1
    r.rest = (Text.unifyBreaks source).drop r.index ∧
    (r.queued = [] ∨ ∃ line, r.queued = [.closing line]) ∧
    (∀ m, r.taken (r.queued.length + m) =
        r.queued ++ ((start r.rest).taken m).map (Statement.lowered lines) ∧
      (r.after (r.queued.length + m)).faults =
        r.faults ++ ((start r.rest).after m).faults.map (Fault.lowered lines)) ∧
    (readSource source).statements = ((start source).taken n).filter (!·.isEnding) ++
      (r.queued ++ (readSource r.rest).statements.map (Statement.lowered lines)) ∧
    (readSource source).faults =
      r.faults ++ (readSource r.rest).faults.map (Fault.lowered lines) := by
  intro r lines
  have hw : r.Waits := waits_after (start source) (Or.inl rfl) n
  have hp : r.Plain := by
    rw [Plain, source_after]
    exact plain_start source
  obtain ⟨hd, hf⟩ := drain_taken (start source) (Or.inl rfl) n
  obtain ⟨hs, hg⟩ := drain_eq r hp
  refine ⟨by rw [rest, source_after]; rfl, hw, fun m => ?_, ?_, ?_⟩
  · obtain ⟨ha, ht⟩ := goes_on r hp hw m
    exact ⟨ht, by rw [ha]; rfl⟩
  · rw [← hs]
    exact hd
  · rw [← hg]
    exact congrArg Reader.faults hf

end Reader

end Scan

end NestedCss
