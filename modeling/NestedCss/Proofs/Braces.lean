import NestedCss.Proofs.Faultless
import NestedCss.Proofs.Filing

/-!
# Stray braces

A brace that closes no block is reported and does nothing else: what is filed is what would be filed
without it. The blocks that stay open are counted and reported once, at the end.
-/

set_option autoImplicit false

namespace NestedCss.Braces

open Filing

/-- The statements without the braces that close nothing, where so many blocks are open before. -/
def matched : Nat → List Statement → List Statement
  | _, [] => []
  | blocks, .opening t line :: ts => .opening t line :: matched (blocks + 1) ts
  | 0, .closing _ :: ts => matched 0 ts
  | blocks + 1, .closing line :: ts => .closing line :: matched blocks ts
  | blocks, s :: ts => s :: matched blocks ts

/-- The lines of the braces that close nothing. -/
def strays : Nat → List Statement → List Int
  | _, [] => []
  | blocks, .opening _ _ :: ts => strays (blocks + 1) ts
  | 0, .closing line :: ts => line :: strays 0 ts
  | blocks + 1, .closing _ :: ts => strays blocks ts
  | blocks, _ :: ts => strays blocks ts

def strayFault (line : Int) : Fault := ⟨.braceUnmatched, some line⟩

/-- The fault of so many blocks that stay open. -/
def openFault (blocks : Nat) (line : Int) : List Fault :=
  if blocks = 0 then [] else [⟨.blocksOpen blocks, some line⟩]

/-! ## What does not depend on the faults -/

/-- All but the faults. -/
def hushed (u : Unnesting) : Unnesting := { u with faults := [] }

theorem eq_of_hushed (u v : Unnesting) (h : hushed u = hushed v) :
    u = { v with faults := u.faults } := by
  have hf := congrArg (fun w : Unnesting => { w with faults := u.faults }) h
  exact hf

theorem hushed_take (u : Unnesting) (fs : List Fault) (s : Statement) :
    hushed ({ u with faults := fs }.take s) = hushed (u.take s) := by
  cases s with
  | closing line =>
    simp only [Unnesting.take, Unnesting.leave]
    split <;> rfl
  | declaration d =>
    simp only [Unnesting.take, Unnesting.file]
    split <;> rfl
  | _ => rfl

theorem hushed_takeAll (u : Unnesting) (fs : List Fault) (ts : List Statement) :
    hushed ({ u with faults := fs }.takeAll ts) = hushed (u.takeAll ts) := by
  induction ts generalizing u fs with
  | nil => rfl
  | cons s ts ih =>
    have hs := eq_of_hushed _ _ (hushed_take u fs s)
    rw [Unnesting.takeAll, List.foldl_cons, hs]
    exact ih (u.take s) _

/-! ## What does not depend on stray braces -/

/-- Above the scope, a stray brace is a fault and nothing else. -/
theorem takeAll_matched (u : Unnesting) (blocks : Nat) (ts : List Statement)
    (hu : u.stack.length = blocks + 1) :
    hushed (u.takeAll ts) = hushed (u.takeAll (matched blocks ts)) ∧
      (u.takeAll ts).faults = u.faults ++ (strays blocks ts).map strayFault := by
  induction ts generalizing u blocks with
  | nil => exact ⟨rfl, (List.append_nil _).symm⟩
  | cons s ts ih =>
    cases s with
    | opening t line =>
      exact ih (u.enter t) (blocks + 1) (by simp [Unnesting.enter, Unnesting.stack_settle, hu])
    | closing line =>
      cases blocks with
      | zero =>
        have hl : u.take (.closing line) = { u with faults := u.faults ++ [strayFault line] } := by
          simp [Unnesting.take, Unnesting.leave, hu, strayFault]
        obtain ⟨hh, hf⟩ := ih (u.take (.closing line)) 0 (by rw [hl]; exact hu)
        rw [hl] at hh hf
        rw [show u.takeAll (.closing line :: ts) = (u.take (.closing line)).takeAll ts from rfl, hl]
        refine ⟨hh.trans (hushed_takeAll u _ _), hf.trans ?_⟩
        simp [strays]
      | succ blocks =>
        have hl : u.take (.closing line) = u.settle u.stack.dropLast := by
          simp [Unnesting.take, Unnesting.leave, hu]
        have hi := ih (u.take (.closing line)) blocks (by
          rw [hl, Unnesting.stack_settle, List.length_dropLast, hu, Nat.add_sub_cancel])
        have hf : (u.take (.closing line)).faults = u.faults := by
          rw [hl]
          rfl
        rw [hf] at hi
        exact hi
    | declaration d =>
      have hi := ih (u.file d) blocks (by rwa [Unnesting.stack_file])
      rw [Grammar.faults_file] at hi
      exact hi
    | ending t line => exact ih u blocks hu
    | bare t line => exact ih u blocks hu

theorem openFaults_eq (u : Unnesting) (blocks : Nat) (line : Int)
    (hu : u.stack.length = blocks + 1) : u.openFaults line = openFault blocks line := by
  simp [Unnesting.openFaults, openFault, hu, Nat.pos_iff_ne_zero]

theorem stack_renamed (u : Unnesting) : u.renamed.stack = u.stack := by
  unfold Unnesting.renamed
  split <;> rfl

theorem faults_renamed (u : Unnesting) : u.renamed.faults = u.faults := by
  unfold Unnesting.renamed
  split <;> rfl

theorem hushed_renamed (u v : Unnesting) (h : hushed u = hushed v) :
    hushed u.renamed = hushed v.renamed := by
  rw [eq_of_hushed u v h]
  unfold Unnesting.renamed
  split <;> rfl

theorem hushed_run (u : Unnesting) : hushed u.run =
    hushed (u.restart.takeAll (matched 0 (Scan.readSource u.source).statements)).renamed := by
  obtain ⟨hh, -⟩ := takeAll_matched u.restart 0 (Scan.readSource u.source).statements rfl
  exact hushed_renamed u.gather _ hh

theorem stack_run (u : Unnesting) :
    u.run.stack = pathStack u.scope (openPreludes (Scan.readSource u.source).statements) := by
  rw [Unnesting.run, stack_renamed]
  exact (filed_run u (Scan.readSource u.source).statements).stack_eq

theorem faults_run (u : Unnesting) : u.run.faults =
    (Scan.readSource u.source).faults ++
      (strays 0 (Scan.readSource u.source).statements).map strayFault ++
        openFault (openPreludes (Scan.readSource u.source).statements).length
          (Scan.readSource u.source).line := by
  obtain ⟨-, hf⟩ := takeAll_matched u.restart 0 (Scan.readSource u.source).statements rfl
  have hs := (filed_run u (Scan.readSource u.source).statements).stack_eq
  have ho := openFaults_eq (u.restart.takeAll (Scan.readSource u.source).statements) _
    (Scan.readSource u.source).line (by rw [hs, path_stack_length])
  rw [Unnesting.run, faults_renamed, Unnesting.gather, ho, hf]
  rfl

/-- The faults of a run are those of the reading, the stray braces and the blocks that stay open.
All else is as it would be without the stray braces. -/
theorem stray_braces_are_only_reported (u : Unnesting) :
    let reading := Scan.readSource u.source
    let path := openPreludes reading.statements
    let kept := (u.restart.takeAll (matched 0 reading.statements)).renamed
    u.run.faults = reading.faults ++ (strays 0 reading.statements).map strayFault ++
        openFault path.length reading.line ∧
      u.run.stack = pathStack u.scope path ∧ u.run.book = kept.book ∧ u.run.css = kept.css := by
  intro reading path kept
  have hb := congrArg Unnesting.book (hushed_run u)
  have hc := congrArg Unnesting.css (hushed_run u)
  exact ⟨faults_run u, stack_run u, hb, hc⟩

example : (Unnesting.start "\x7d.a\x7b\x7d\x7d.b\x7b&:hover\x7bcolor:red".toList ".s".toList
    Settings.standard).run.faults.map Fault.text =
      ["Declaration not terminated (line 1)", "Unmatched closing brace (line 1)",
        "Unmatched closing brace (line 1)", "2 block(s) not closed (line 1)"] := by
  decide +kernel

/-- A prelude led by the scope is anchored to it when its block is opened. -/
theorem anchored_prelude_on_stack :
    (Unnesting.start ".s:hover\x7bcolor:red;".toList ".s".toList Settings.standard).run.stack ≠
      ".s".toList :: openPreludes (Scan.readSource ".s:hover\x7bcolor:red;".toList).statements := by
  decide +kernel

end NestedCss.Braces
