import NestedCss.Proofs.Attempts
import NestedCss.Proofs.Sessions

/-!
# Definedness

Unnesting and compiling, put together of attempts, never fail, whatever the source, the scope, the
settings, the template and the css of earlier templates are, and in whatever order an unnesting is
used. That a rule is there for each declaration and for each block that is left rests on stack and
book being in step.
-/

set_option autoImplicit false

namespace NestedCss.Attempt
open NestedCss.Unnesting

/-! ## Unnesting -/

/-- Goes on with another stack, whose rule is taken from the book. -/
def settle (u : Unnesting) (stack : List Text) : Attempt Unnesting := do
  let key ← ofStack stack
  let book := u.book.reach key
  let _ ← need (.rule key) (book.lookup key)
  return { u with stack := stack, book := book, current := some key }

def enter (u : Unnesting) (t : Text) : Attempt Unnesting := settle u (u.stack ++ [u.anchored t])

def leave (u : Unnesting) (line : Option Int) : Attempt Unnesting :=
  if u.stack.length ≤ 1 then return { u with faults := u.faults ++ [⟨.braceUnmatched, line⟩] }
  else settle u u.stack.dropLast

/-- Files a declaration with the current rule. -/
def file (u : Unnesting) (d : Declaration) : Attempt Unnesting :=
  match u.current with
  | some key => do
    let _ ← need (.rule key) (u.book.lookup key)
    return { u with book := u.book.file key d }
  | none => return u

def take (u : Unnesting) : Statement → Attempt Unnesting
  | .opening t _ => enter u t
  | .closing line => leave u (some line)
  | .declaration d => file u d
  | .ending _ _ => return u
  | .bare _ _ => return u

def takeAll (u : Unnesting) (ts : List Statement) : Attempt Unnesting := ts.foldlM take u

def feed (u : Unnesting) (source : Text) : Attempt Unnesting := do
  let reading ← readSource source
  takeAll u reading.statements

def restart (u : Unnesting) : Attempt Unnesting :=
  enter { u with faults := [], stack := [], book := [] } u.scope

def gather (u : Unnesting) : Attempt Unnesting := do
  let v ← restart u
  let reading ← readSource u.source
  let w ← takeAll v reading.statements
  return { w with faults := reading.faults ++ w.faults ++ w.openFaults reading.line }

def renamed (u : Unnesting) : Attempt Unnesting :=
  if u.settings.namespaced then do
    let book ← rename u.namespaced u.book
    return { u with book := book }
  else return u

def run (u : Unnesting) : Attempt Unnesting := do
  let v ← gather u
  renamed v

def act (u : Unnesting) : Action → Attempt Unnesting
  | .enter t => enter u t
  | .leave line => leave u line
  | .take s => take u s
  | .feed source => feed u source
  | .run => run u
  | .replaceSource source => return { u with source := source }
  | .replaceScope scope => return { u with scope := scope }

/-- A new unnesting and all that is done with it. -/
def session (source scope : Text) (r : Record) (as : List Action) : Attempt Unnesting := do
  let settings ← settings r
  as.foldlM act (start source scope settings)

section Steps

variable {u : Unnesting}

theorem exists_rule {b : Book} {k : Key} (h : k ∈ b.keys) :
    ∃ r, need (.rule k) (b.lookup k) = pure r := by
  obtain ⟨r, hr, -⟩ := Book.exists_of_mem_keys b k h
  exact ⟨r, by rw [hr, need_some]⟩

theorem settle_eq (u : Unnesting) (stack : List Text) : settle u stack = pure (u.settle stack) := by
  obtain ⟨r, hr⟩ := exists_rule (Book.mem_keys_reach u.book (Key.ofStack stack))
  simp only [settle, ofStack_eq, pure_bind, hr]
  rfl

theorem enter_eq (u : Unnesting) (t : Text) : enter u t = pure (u.enter t) := settle_eq u _

theorem leave_eq (u : Unnesting) (line : Option Int) : leave u line = pure (u.leave line) := by
  rw [leave, Unnesting.leave]
  split
  · rfl
  · exact settle_eq u _

/-- The current rule is there when stack and book are in step. -/
theorem file_eq (h : Standing u) (d : Declaration) : file u d = pure (u.file d) := by
  by_cases hn : u.stack = []
  · have hc : u.current = none := by rw [h.current_eq, if_pos hn]
    simp only [file, Unnesting.file, hc]
  · have hc : u.current = some (Key.ofStack u.stack) := by rw [h.current_eq, if_neg hn]
    obtain ⟨r, hr⟩ := exists_rule (h.below u.stack hn (List.prefix_refl _))
    simp only [file, Unnesting.file, hc, hr, pure_bind]

theorem take_eq (h : Standing u) (s : Statement) : take u s = pure (u.take s) := by
  cases s with
  | opening t line => exact enter_eq u t
  | closing line => exact leave_eq u (some line)
  | declaration d => exact file_eq h d
  | ending t line => rfl
  | bare t line => rfl

theorem takeAll_eq (h : Standing u) (ts : List Statement) :
    takeAll u ts = pure (u.takeAll ts) :=
  foldlM_eq_pure (fun _ s hv => take_eq hv s) (fun _ s hv => standing_take hv s) ts u h

theorem feed_eq (h : Standing u) (source : Text) : feed u source = pure (u.feed source) := by
  rw [feed, readSource_eq, pure_bind, takeAll_eq h]
  rfl

theorem gather_eq (u : Unnesting) : gather u = pure u.gather := by
  have hr : restart u = pure u.restart := enter_eq _ _
  rw [gather, hr, pure_bind, readSource_eq, pure_bind, takeAll_eq (standing_restart u), pure_bind]
  rfl

theorem renamed_eq (u : Unnesting) : renamed u = pure u.renamed := by
  rw [renamed, rename_eq, Unnesting.renamed]
  split <;> rfl

/-- A run rests on nothing that came before. -/
theorem run_eq (u : Unnesting) : run u = pure u.run := by
  rw [run, gather_eq, pure_bind, renamed_eq]
  rfl

theorem act_eq (h : Standing u) (a : Action) : act u a = pure (u.act a) := by
  cases a with
  | enter t => exact enter_eq u t
  | leave line => exact leave_eq u line
  | take s => exact take_eq h s
  | feed source => exact feed_eq h source
  | run => exact run_eq u
  | replaceSource source => rfl
  | replaceScope scope => rfl

theorem session_eq (source scope : Text) (r : Record) (as : List Action) :
    session source scope r as =
      pure ((start source scope (Settings.ofRecord r)).actAll as) := by
  rw [session, settings_eq, pure_bind]
  exact foldlM_eq_pure (fun _ a hv => act_eq hv a) (fun _ a hv => standing_act hv a) as _
    (standing_start source scope _)

end Steps

/-! ## Compiling -/

def nested (t : Template) (prior : Prior) : Attempt Reported := do
  let texts ← (t.fragments prior).mapM (rendered prior)
  return ⟨Squeeze.squeeze texts.flatten,
    t.countNotices ++ (t.fragments prior).flatMap (Fragment.notices prior)⟩

def unnest (source scope : Text) (r : Record) : Attempt Reported := do
  let settings ← settings r
  let u ← run (start source scope settings)
  return ⟨u.css, u.book.keys.map .newKey ++ u.faults.map .fault⟩

def unnestGlobally (source scope : Text) (r : Record) : Attempt Reported := do
  let s ← unnest source scope r
  return { s with text := Scope.remove scope s.text }

def compile (t : Template) (scope : Text) (prior : Prior) (r : Record) : Attempt Reported := do
  let n ← nested t prior
  let s ← unnest n.text scope r
  return ⟨s.text, n.notices ++ s.notices⟩

theorem nested_eq (t : Template) (prior : Prior) : nested t prior = pure (t.nested prior) := by
  rw [nested, mapM_eq_pure _ fun f _ => rendered_eq prior f, pure_bind, ← List.flatMap_def]
  rfl

theorem unnest_eq (source scope : Text) (r : Record) :
    unnest source scope r = pure (NestedCss.unnest source scope (Settings.ofRecord r)) := by
  rw [unnest, settings_eq, pure_bind, run_eq]
  rfl

theorem compile_eq (t : Template) (scope : Text) (prior : Prior) (r : Record) :
    compile t scope prior r = pure (t.compile scope prior (Settings.ofRecord r)) := by
  rw [compile, nested_eq, pure_bind, unnest_eq]
  rfl

/-- No attempt ever fails: sources are read, templates are compiled, css is unnested under a scope
and for everywhere, and unnestings are used in any order, each with the result that is there without
attempts. -/
theorem nothing_is_missing (r : Record) :
    (∀ source, readSource source = .ok (Scan.readSource source)) ∧
    (∀ t scope prior, compile t scope prior r =
      .ok (t.compile scope prior (Settings.ofRecord r))) ∧
    (∀ source scope, unnest source scope r =
      .ok (NestedCss.unnest source scope (Settings.ofRecord r))) ∧
    (∀ source scope, unnestGlobally source scope r =
      .ok (NestedCss.unnestGlobally source scope (Settings.ofRecord r))) ∧
    ∀ source scope as, session source scope r as =
      .ok ((start source scope (Settings.ofRecord r)).actAll as) := by
  refine ⟨readSource_eq, fun t scope prior => compile_eq t scope prior r,
    fun source scope => unnest_eq source scope r, fun source scope => ?_,
    fun source scope as => session_eq source scope r as⟩
  rw [unnestGlobally, unnest_eq, pure_bind]
  rfl

end NestedCss.Attempt
