import NestedCss.Animation
import NestedCss.Condition
import NestedCss.Scan.Reading
import NestedCss.Scope
import NestedCss.Settings
import NestedCss.Sheet

/-!
# Unnesting

Nested css is unnested statement by statement. A stack holds the preludes of the open blocks above
the scope, and the stack decides under which key a declaration is filed: inside keyframes under
their header and the selectors within it, and elsewhere under all the conditions joined and all the
selectors composed. The scope itself is never left.
-/

set_option autoImplicit false

namespace NestedCss

/-- The innermost keyframes header of a stack and all that stands above it. -/
def innermostKeyframes : List Text → Option (Text × List Text)
  | [] => none
  | t :: ts =>
    match innermostKeyframes ts with
    | some found => some found
    | none => if Prelude.kind t = .keyframes then some (t, ts) else none

def ofKind (k : Prelude.Kind) (stack : List Text) : List Text :=
  stack.filter (Prelude.kind · == k)

/-- The key that a stack stands for, its lowest text first. -/
def Key.ofStack (stack : List Text) : Key :=
  match innermostKeyframes stack with
  | some (header, above) => ⟨header, Path.compose above⟩
  | none => ⟨Condition.conjoin (ofKind .condition stack), Path.compose (ofKind .selector stack)⟩

structure Unnesting where
  source : Text
  scope : Text
  settings : Settings
  faults : List Fault
  /-- The scope and the preludes of the open blocks, the scope first. -/
  stack : List Text
  book : Book
  /-- The key under which declarations are filed. -/
  current : Option Key
  deriving DecidableEq, Repr

namespace Unnesting

def start (source scope : Text) (settings : Settings) : Unnesting :=
  ⟨source, scope, settings, [], [], [], none⟩

/-- Goes on with another stack. -/
def settle (u : Unnesting) (stack : List Text) : Unnesting :=
  let key := Key.ofStack stack
  { u with stack := stack, book := u.book.reach key, current := some key }

/-- The text as it goes onto the stack. The first text, which is the scope, goes on as it is. -/
def anchored (u : Unnesting) (t : Text) : Text :=
  if u.stack.isEmpty then t else Scope.anchor u.scope u.stack t

def enter (u : Unnesting) (t : Text) : Unnesting := u.settle (u.stack ++ [u.anchored t])

def leave (u : Unnesting) (line : Option Int) : Unnesting :=
  if u.stack.length ≤ 1 then { u with faults := u.faults ++ [⟨.braceUnmatched, line⟩] }
  else u.settle u.stack.dropLast

def file (u : Unnesting) (d : Declaration) : Unnesting :=
  match u.current with
  | some key => { u with book := u.book.file key d }
  | none => u

def take (u : Unnesting) : Statement → Unnesting
  | .opening t _ => u.enter t
  | .closing line => u.leave (some line)
  | .declaration d => u.file d
  | .ending _ _ => u
  | .bare _ _ => u

def takeAll (u : Unnesting) (ts : List Statement) : Unnesting := ts.foldl take u

/-- Takes all the statements of another source and leaves its faults aside. -/
def feed (u : Unnesting) (source : Text) : Unnesting :=
  u.takeAll (Scan.readSource source).statements

/-- The fault of blocks that are open at the end. -/
def openFaults (u : Unnesting) (line : Int) : List Fault :=
  if 1 < u.stack.length then [⟨.blocksOpen (u.stack.length - 1), some line⟩] else []

/-- Starts over with the scope alone. -/
def restart (u : Unnesting) : Unnesting :=
  { u with faults := [], stack := [], book := [] }.enter u.scope

/-- Files all the declarations of the source. -/
def gather (u : Unnesting) : Unnesting :=
  let reading := Scan.readSource u.source
  let v := u.restart.takeAll reading.statements
  { v with faults := reading.faults ++ v.faults ++ v.openFaults reading.line }

/-- The name of keyframes within the scope. -/
def namespaced (u : Unnesting) (name : Text) : Text :=
  Scope.identifier u.scope ++ u.settings.separator ++ name

def renamed (u : Unnesting) : Unnesting :=
  if u.settings.namespaced then { u with book := Animation.rename u.namespaced u.book } else u

/-- Unnests the whole source. -/
def run (u : Unnesting) : Unnesting := u.gather.renamed

def css (u : Unnesting) : Text := Sheet.rendered u.settings.indent u.book.filled

def currentRule (u : Unnesting) : Option Rule :=
  match u.current with
  | some key => u.book.lookup key
  | none => none

theorem takeAll_append (u : Unnesting) (ss ts : List Statement) :
    u.takeAll (ss ++ ts) = (u.takeAll ss).takeAll ts :=
  List.foldl_append

theorem stack_settle (u : Unnesting) (stack : List Text) : (u.settle stack).stack = stack := rfl

theorem stack_file (u : Unnesting) (d : Declaration) : (u.file d).stack = u.stack := by
  unfold file
  split <;> rfl

/-- What is filed does not depend on the settings. -/
theorem take_with_settings (u : Unnesting) (settings : Settings) (s : Statement) :
    { u with settings := settings }.take s = { u.take s with settings := settings } := by
  cases s with
  | closing line =>
    simp only [take, leave]
    split <;> rfl
  | declaration d =>
    simp only [take, file]
    split <;> rfl
  | _ => rfl

theorem takeAll_with_settings (u : Unnesting) (settings : Settings) (ts : List Statement) :
    { u with settings := settings }.takeAll ts = { u.takeAll ts with settings := settings } := by
  induction ts generalizing u with
  | nil => rfl
  | cons s ts ih =>
    rw [takeAll, List.foldl_cons, take_with_settings]
    exact ih (u.take s)

theorem settings_takeAll (u : Unnesting) (ts : List Statement) :
    (u.takeAll ts).settings = u.settings := by
  have h := congrArg (fun v : Unnesting => v.settings) (takeAll_with_settings u u.settings ts)
  exact h

theorem gather_with_settings (u : Unnesting) (settings : Settings) :
    { u with settings := settings }.gather = { u.gather with settings := settings } := by
  have hs : { u with settings := settings }.restart = { u.restart with settings := settings } := rfl
  simp only [gather, hs, takeAll_with_settings]
  rfl

theorem settings_gather (u : Unnesting) : u.gather.settings = u.settings :=
  settings_takeAll u.restart _

theorem settings_run (u : Unnesting) : u.run.settings = u.settings := by
  rw [run, renamed]
  split <;> exact settings_gather u

end Unnesting

end NestedCss
