import NestedCss.Statement

/-!
# Rules

A rule collects the declarations of one selector within one group, where a group is a condition or
a keyframes header around rules, or empty. A book keeps the rules by the keys they were made for, in
the order in which the keys were first reached.
-/

set_option autoImplicit false

namespace NestedCss

structure Key where
  group : Text
  selector : Text
  deriving DecidableEq, Repr

structure Rule where
  group : Text
  selector : Text
  lines : List Declaration
  deriving DecidableEq, Repr

namespace Rule

def ofKey (k : Key) : Rule := ⟨k.group, k.selector, []⟩

/-- The rule on one line of css. -/
def rendered (r : Rule) : Text :=
  r.selector ++ '{' :: Text.join [' '] (r.lines.map Declaration.text) ++ ['}']

def described (r : Rule) : Text :=
  "RuleSlot(".toList ++ Text.quoted r.group ++ ", ".toList ++ Text.quoted r.selector
    ++ ", lines=".toList ++ Text.natural r.lines.length ++ [')']

def add (r : Rule) (d : Declaration) : Rule := { r with lines := r.lines ++ [d] }

end Rule

abbrev Book := List (Key × Rule)

namespace Book

def keys (b : Book) : List Key := b.map Prod.fst

def rules (b : Book) : List Rule := b.map Prod.snd

/-- The book with a rule for the key, a new one at the end if it had none. -/
def reach (b : Book) (k : Key) : Book :=
  if b.keys.contains k then b else b ++ [(k, Rule.ofKey k)]

/-- Files a declaration under a key of the book. -/
def file (b : Book) (k : Key) (d : Declaration) : Book :=
  b.map fun (l, r) => (l, if l = k then r.add d else r)

/-- The rules that have declarations. -/
def filled (b : Book) : List Rule := b.rules.filter (!·.lines.isEmpty)

/-- Changes the rules that have declarations. -/
def mapFilled (f : Rule → Rule) (b : Book) : Book :=
  b.map fun (l, r) => (l, if r.lines.isEmpty then r else f r)

theorem keys_reach (b : Book) (k : Key) :
    (b.reach k).keys = if k ∈ b.keys then b.keys else b.keys ++ [k] := by
  simp only [reach, List.contains_iff_mem]
  split <;> simp [keys]

theorem mem_keys_reach (b : Book) (k : Key) : k ∈ (b.reach k).keys := by
  rw [keys_reach]
  split
  · assumption
  · simp

theorem keys_file (b : Book) (k : Key) (d : Declaration) : (b.file k d).keys = b.keys := by
  simp [keys, file, Function.comp_def]

theorem keys_mapFilled (f : Rule → Rule) (b : Book) : (b.mapFilled f).keys = b.keys := by
  simp [keys, mapFilled, Function.comp_def]

theorem nodup_keys_reach (b : Book) (k : Key) (h : b.keys.Nodup) : (b.reach k).keys.Nodup := by
  rw [keys_reach]
  split
  · exact h
  · next hk =>
    refine List.nodup_append.mpr ⟨h, by simp, ?_⟩
    simpa using fun _ ha => ne_of_mem_of_not_mem ha hk

end Book

end NestedCss
