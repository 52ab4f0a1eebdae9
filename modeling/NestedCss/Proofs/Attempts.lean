import NestedCss.Compile
import NestedCss.Proofs.Filing
import NestedCss.Proofs.Headers
import NestedCss.Proofs.Renaming

/-!
# Attempts

Some steps on the way from nested css to flat css take something that has to be there: the first
character of a piece, the last of the keyframes headers, the new name of keyframes. Here each of
them is an attempt that fails where there is nothing to take. The parts of the way are written once
more on top of such attempts, and wherever a part is used it succeeds with what the part gives.
-/

set_option autoImplicit false

namespace NestedCss

/-- What an attempt can find missing. -/
inductive Missing where
  /-- The last character that was written into a draft. -/
  | lastWritten
  /-- The first character of a piece that goes into a draft. -/
  | firstOfPiece
  | firstCondition
  | firstPath
  | lastKeyframes
  /-- What stands at a place of the stack. -/
  | entry (place : Nat)
  | newName (name : Text)
  | rule (key : Key)
  | setting (key : Text)
  | reference (name : Text)
  deriving DecidableEq, Repr

abbrev Attempt := Except Missing

namespace Attempt

def need {α : Type} (m : Missing) : Option α → Attempt α
  | some a => return a
  | none => throw m

@[simp] theorem need_some {α : Type} (m : Missing) (a : α) : need m (some a) = pure a := rfl

theorem mapM_eq_pure {α β : Type} {f : α → Attempt β} {g : α → β} (l : List α)
    (h : ∀ a ∈ l, f a = pure (g a)) : l.mapM f = pure (l.map g) := by
  induction l with
  | nil => rfl
  | cons a l ih =>
    rw [List.mapM_cons, h a (by simp), ih fun b hb => h b (by simp [hb])]
    rfl

/-- A fold never fails where each step keeps up what the steps rest on. -/
theorem foldlM_eq_pure {α β : Type} {f : β → α → Attempt β} {g : β → α → β} {P : β → Prop}
    (hf : ∀ b a, P b → f b a = pure (g b a)) (hg : ∀ b a, P b → P (g b a)) (l : List α) (b : β)
    (hb : P b) : l.foldlM f b = pure (l.foldl g b) := by
  induction l generalizing b with
  | nil => rfl
  | cons a l ih =>
    rw [List.foldlM_cons, hf b a hb, pure_bind, List.foldl_cons]
    exact ih _ (hg b a hb)

/-! ## Reading -/

section Reading
open NestedCss.Scan

/-- Whether a space goes between the draft and a piece. Neither character is looked at unless what
comes before leaves it open. -/
def spaces (d : Draft) (piece : Text) : Attempt Bool :=
  if d.gap && !d.written.isEmpty then do
    let last ← need .lastWritten d.written.head?
    if d.isTight last then return false
    let first ← need .firstOfPiece piece.head?
    return !d.isTight first
  else return false

def put (d : Draft) (piece : Text) : Attempt Draft := do
  let spaced ← spaces d piece
  return { d with
    written := piece.reverse ++ (if spaced then ' ' :: d.written else d.written)
    gap := false }

def mark (d : Draft) (line : Int) (c : Char) : Attempt Outcome := do
  if Mark.openers.contains c then
    let e ← put d [c]
    return ⟨{ e with depth := d.depth + 1 }, [], []⟩
  else if Mark.closers.contains c then
    let e ← put { d with depth := d.depth - 1 } [c]
    return ⟨e, [], []⟩
  else if c == '{' || c == '}' || (c == ';' && d.depth == 0) then
    -- These end the statement, and nothing is put into it.
    return d.mark line c
  else
    let e ← put d [c]
    return ⟨e, [], []⟩

def step (d : Draft) (line : Int) : Lexeme → Attempt Outcome
  | .quotation quote body ending => do
    let e ← put d (Draft.stringText quote body ending)
    return ⟨e, Draft.stringFaults line ending, []⟩
  | .mark c => mark d line c
  | x => return d.step line x

def read (line : Int) (d : Draft) : List Lexeme → Attempt Reading
  | [] => return Scan.read line d []
  | x :: xs => do
    let o ← step d line x
    let r ← read (line + x.breaks) o.draft xs
    return r.prepend o.statements o.faults

def readSource (source : Text) : Attempt Reading :=
  read 1 Draft.empty (lexemes 0 (Text.unifyBreaks source))

theorem spaces_eq (d : Draft) (piece : Text) (hp : piece ≠ []) :
    spaces d piece = pure (d.spaces piece) := by
  obtain ⟨b, r, rfl⟩ := List.exists_cons_of_ne_nil hp
  obtain ⟨written, gap, depth⟩ := d
  cases gap with
  | false => simp [spaces, Draft.spaces]
  | true =>
    cases written with
    | nil => simp [spaces, Draft.spaces]
    | cons a w =>
      simp only [spaces, Draft.spaces, List.isEmpty_cons, List.head?_cons, Bool.not_false,
        Bool.and_self, if_true, need_some, pure_bind, Bool.true_and]
      cases Draft.isTight ⟨a :: w, true, depth⟩ a <;> simp

theorem put_eq (d : Draft) (piece : Text) (hp : piece ≠ []) :
    put d piece = pure (d.put piece) := by
  rw [put, spaces_eq d piece hp, pure_bind]
  rfl

/-- What fails is to put an empty piece behind a gap. No lexeme leads there. -/
example : put ⟨['a'], true, 0⟩ [] = .error .firstOfPiece := rfl

theorem mark_eq (d : Draft) (line : Int) (c : Char) : mark d line c = pure (d.mark line c) := by
  have hp : ∀ e : Draft, put e [c] = pure (e.put [c]) := fun e => put_eq e [c] (by simp)
  rw [mark]
  simp only [hp, pure_bind]
  split
  · next ho => rw [Draft.mark, if_pos ho]
  split
  · next ho hc => rw [Draft.mark, if_neg ho, if_pos hc]
  split
  · rfl
  · next ho hc he =>
    simp only [Bool.or_eq_true, not_or] at he
    rw [Draft.mark, if_neg ho, if_neg hc, if_neg he.1.1, if_neg he.1.2, if_neg he.2]

theorem stringText_ne_nil (quote : Char) (body : Text) (ending : StringEnd) :
    Draft.stringText quote body ending ≠ [] := by
  cases ending <;> simp [Draft.stringText]

theorem step_eq (d : Draft) (line : Int) (x : Lexeme) : step d line x = pure (d.step line x) := by
  cases x with
  | quotation quote body ending =>
    rw [step, put_eq _ _ (stringText_ne_nil quote body ending), pure_bind]
    rfl
  | mark c => exact mark_eq d line c
  | _ => rfl

theorem read_eq (line : Int) (d : Draft) (xs : List Lexeme) :
    read line d xs = pure (Scan.read line d xs) := by
  induction xs generalizing line d with
  | nil => rfl
  | cons x xs ih =>
    rw [read, step_eq, pure_bind, ih, pure_bind]
    rfl

theorem readSource_eq (source : Text) : readSource source = pure (Scan.readSource source) :=
  read_eq 1 Draft.empty _

end Reading

/-! ## Keys -/

def conjoin (ts : List Text) : Attempt Text :=
  if ts.isEmpty then return []
  else do
    let first ← need .firstCondition ts.head?
    let keyword := (Condition.keyword? first).getD "@media".toList
    return match (ts.flatMap Condition.conjuncts).eraseDups with
      | [] => keyword
      | parts => keyword ++ ' ' :: Text.join Condition.joint parts

def compose (ts : List Text) : Attempt Text :=
  if ts.isEmpty then return []
  else do
    let first ← need .firstPath ts.head?
    return ts.tail.foldl Path.attachList first

/-- The places of the keyframes headers in a stack. -/
def headers (stack : List Text) : List Nat := stack.findIdxs (Prelude.kind · == .keyframes)

def ofStack (stack : List Text) : Attempt Key :=
  if (headers stack).isEmpty then do
    let group ← conjoin (ofKind .condition stack)
    let selector ← compose (ofKind .selector stack)
    return ⟨group, selector⟩
  else do
    let place ← need .lastKeyframes (headers stack).getLast?
    let header ← need (.entry place) stack[place]?
    let selector ← compose (stack.drop (place + 1))
    return ⟨header, selector⟩

theorem conjoin_eq (ts : List Text) : conjoin ts = pure (Condition.conjoin ts) := by
  cases ts <;> rfl

theorem compose_eq (ts : List Text) : compose ts = pure (Path.compose ts) := by
  cases ts <;> rfl

theorem headers_eq_nil (stack : List Text) (h : ∀ t ∈ stack, Prelude.kind t ≠ .keyframes) :
    headers stack = [] := by
  rw [headers, List.findIdxs_eq_nil_iff]
  simpa using h

theorem headers_append (below above : List Text) (header : Text)
    (hh : Prelude.kind header = .keyframes) (ha : ∀ t ∈ above, Prelude.kind t ≠ .keyframes) :
    headers (below ++ header :: above) = headers below ++ [below.length] := by
  have hn : above.findIdxs (Prelude.kind · == .keyframes) (below.length + 1) = [] := by
    rw [List.findIdxs_eq_nil_iff]
    simpa using ha
  rw [headers, headers, List.findIdxs_append, List.findIdxs_cons, if_pos (by simpa using hh),
    Nat.zero_add, hn]

theorem ofStack_eq (stack : List Text) : ofStack stack = pure (Key.ofStack stack) := by
  rw [Key.ofStack]
  split
  · next header above h =>
    obtain ⟨hh, ha, below, rfl⟩ := Filing.innermost_keyframes_some stack above header h
    simp [ofStack, headers_append below above header hh ha, compose_eq]
  · next h =>
    have hn := headers_eq_nil stack (Filing.innermost_keyframes_none stack h)
    simp [ofStack, hn, conjoin_eq, compose_eq]

/-! ## Renaming -/

/-- The new names of the keyframes among some rules, by their old names. -/
def newNames (f : Text → Text) (rules : List Rule) : List (Text × Text) :=
  (Animation.names rules).map fun n => (n, f n)

/-- Replaces the names that a table knows. What was found in the text is looked up in the table. -/
def replaceFrom (table : List (Text × Text)) (inName : Bool) (gone : Nat) : Text → Attempt Text
  | [] => return []
  | c :: r =>
    match gone with
    | n + 1 => replaceFrom table (Text.isName c) n r
    | 0 =>
      match if inName then none else Text.leadingName (table.map Prod.fst) (c :: r) with
      | none => do
        let rest ← replaceFrom table (Text.isName c) 0 r
        return c :: rest
      | some name => do
        let found := (c :: r).take name.length
        let new ← need (.newName found) (table.lookup found)
        let rest ← replaceFrom table (Text.isName c) (name.length - 1) r
        return new ++ rest

def renameGroup (table : List (Text × Text)) (group : Text) : Attempt Text :=
  match Prelude.Header.of? group with
  | some h => do
    let new ← need (.newName h.name) (table.lookup h.name)
    return h.named new
  | none => return group

def renameLine (table : List (Text × Text)) (d : Declaration) : Attempt Declaration :=
  if Animation.refers d.name then do
    let value ← replaceFrom table false 0 d.value
    return ⟨d.head ++ ':' :: value ++ [';'], d.line⟩
  else return d

def renameRule (table : List (Text × Text)) (r : Rule) : Attempt Rule := do
  let group ← renameGroup table r.group
  let lines ← r.lines.mapM (renameLine table)
  return ⟨group, r.selector, lines⟩

def rename (f : Text → Text) (b : Book) : Attempt Book :=
  let table := newNames f b.filled
  if table.isEmpty then return b
  else b.mapM fun (k, r) =>
    if r.lines.isEmpty then return (k, r)
    else do
      let new ← renameRule table r
      return (k, new)

section Renaming

variable (ns : List Text) (f : Text → Text)

theorem lookup_table {n : Text} (h : n ∈ ns) :
    (ns.map fun n => (n, f n)).lookup n = some (f n) := by
  induction ns with
  | nil => simp at h
  | cons m ns ih =>
    rw [List.map_cons, List.lookup_cons]
    by_cases he : n = m
    · simp [he]
    · rw [beq_false_of_ne he]
      exact ih ((List.mem_cons.mp h).resolve_left he)

/-- What is found is one of the names that are looked for, so the table knows it. -/
theorem replaceFrom_eq (inName : Bool) (gone : Nat) (t : Text) :
    replaceFrom (ns.map fun n => (n, f n)) inName gone t =
      pure (Text.replaceFrom ns f inName gone t) := by
  have hk : (ns.map fun n => (n, f n)).map Prod.fst = ns := by simp [Function.comp_def]
  induction t generalizing inName gone with
  | nil => cases gone <;> rfl
  | cons c r ih =>
    cases gone with
    | succ n => exact ih _ n
    | zero =>
      simp only [replaceFrom, Text.replaceFrom, hk]
      cases hn : if inName then none else Text.leadingName ns (c :: r) with
      | none => simp only [ih, pure_bind]
      | some name =>
        have hl : Text.leadingName ns (c :: r) = some name := by
          split at hn
          · simp at hn
          · exact hn
        obtain ⟨hm, s, hs, -⟩ := Text.leadingName_some ns _ name hl
        have hf : (c :: r).take name.length = name := by rw [hs, List.take_left]
        simp only [hf, lookup_table ns f hm, need_some, ih, pure_bind]

theorem renameGroup_eq (group : Text) (h : ∀ n ∈ Prelude.keyframesName group, n ∈ ns) :
    renameGroup (ns.map fun n => (n, f n)) group = pure (Animation.renameGroup f group) := by
  rw [renameGroup, Animation.renameGroup]
  cases ht : Prelude.Header.of? group with
  | none => rfl
  | some hd =>
    have hm : hd.name ∈ ns := h _ (by simp [Prelude.keyframesName, ht])
    simp only [lookup_table ns f hm, need_some, pure_bind]

theorem renameLine_eq (d : Declaration) :
    renameLine (ns.map fun n => (n, f n)) d = pure (Animation.renameLine ns f d) := by
  rw [renameLine, Animation.renameLine, replaceFrom_eq]
  split <;> rfl

theorem renameRule_eq (r : Rule) (h : ∀ n ∈ Prelude.keyframesName r.group, n ∈ ns) :
    renameRule (ns.map fun n => (n, f n)) r = pure (Animation.renameRule ns f r) := by
  rw [renameRule, renameGroup_eq ns f r.group h,
    mapM_eq_pure r.lines fun d _ => renameLine_eq ns f d]
  rfl

end Renaming

/-- Every header that gets a new name is that of a filled rule, whose name is in the table. -/
theorem rename_eq (f : Text → Text) (b : Book) : rename f b = pure (Animation.rename f b) := by
  by_cases hn : Animation.names b.filled = []
  · simp [rename, newNames, Animation.rename_of_names_nil f b hn, hn]
  · have he : (newNames f b.filled).isEmpty = false := by simpa [newNames] using hn
    simp only [rename, he, Bool.false_eq_true, if_false, Animation.rename_of_names f b hn]
    refine mapM_eq_pure b fun e hb => ?_
    obtain ⟨k, r⟩ := e
    dsimp only
    split
    · rfl
    · next hl =>
      have hr : r ∈ b.filled :=
        List.mem_filter.mpr ⟨List.mem_map_of_mem hb, by simpa using hl⟩
      rw [newNames, renameRule_eq _ f r fun n hm => (Animation.mem_names _ n).mpr ⟨r, hr, hm⟩]
      rfl

/-! ## Settings and fragments -/

def settings (r : Record) : Attempt Settings := do
  let filled := Record.filled r
  let indent ← need (.setting Record.indentKey) (filled.lookup Record.indentKey)
  let separator ← need (.setting Record.separatorKey) (filled.lookup Record.separatorKey)
  let namespaced ← need (.setting Record.namespaceKey) (filled.lookup Record.namespaceKey)
  return ⟨indent.shown, separator.shown, namespaced.holds⟩

def rendered (prior : Prior) : Fragment → Attempt Text
  | .reference name =>
    if (prior.lookup name).isSome then need (.reference name) (prior.lookup name)
    else return name
  | f => return f.rendered prior

theorem lookup_filled (r : Record) (k : Text) (hk : k ∈ Record.defaults.map Prod.fst) :
    ∃ d, (Record.filled r).lookup k = some d := by
  cases hr : r.lookup k with
  | some d => exact ⟨d, by rw [Record.filled, List.lookup_append, hr]; rfl⟩
  | none =>
    obtain ⟨e, he, rfl⟩ := List.mem_map.mp hk
    rw [← Option.isSome_iff_exists, List.lookup_isSome_iff]
    refine ⟨e, List.mem_append_right _ (List.mem_filter.mpr ⟨he, ?_⟩), beq_self_eq_true _⟩
    simp [hr]

theorem settings_eq (r : Record) : settings r = pure (Settings.ofRecord r) := by
  obtain ⟨i, hi⟩ := lookup_filled r Record.indentKey (by decide)
  obtain ⟨s, hs⟩ := lookup_filled r Record.separatorKey (by decide)
  obtain ⟨n, hn⟩ := lookup_filled r Record.namespaceKey (by decide)
  simp [settings, Settings.ofRecord, hi, hs, hn]

theorem rendered_eq (prior : Prior) (f : Fragment) :
    rendered prior f = pure (f.rendered prior) := by
  cases f with
  | reference name =>
    rw [rendered, Fragment.rendered]
    cases prior.lookup name <;> rfl
  | _ => rfl

end Attempt

end NestedCss
