import NestedCss.Proofs.FlatSheets
import NestedCss.Proofs.Traces

/-!
# Flat sheets unnested

The statements of a flat sheet file each declaration under the rule it stands in, as long as the
path of each rule stands for its group and selector. On the way the keys of the scope and of the
bare groups come up as well, and they come up first: a rule of that key has to be the first of the
sheet or of its group. Then the rules that are filled are those of the sheet, group by group, and
they are laid out as they were.
-/

set_option autoImplicit false

namespace NestedCss

def Rule.key (r : Rule) : Key := ⟨r.group, r.selector⟩

namespace Filing

/-- The rules that are filled are those of the keys with declarations, as they came up. -/
theorem filledEntries_ledger (scope : Text) (ts : List Statement) :
    (ledger scope ts).filledEntries =
      ((reached scope ts).filter fun k => !(linesUnder scope ts k).isEmpty).map fun k =>
        (k, ⟨k.group, k.selector, linesUnder scope ts k⟩) := by
  rw [Book.filledEntries, ledger, List.filter_map]
  rfl

theorem filled_ledger (scope : Text) (ts : List Statement) : (ledger scope ts).filled =
    ((reached scope ts).filter fun k => !(linesUnder scope ts k).isEmpty).map fun k =>
      ⟨k.group, k.selector, linesUnder scope ts k⟩ := by
  rw [← Book.rules_filledEntries, filledEntries_ledger, Book.rules, List.map_map]
  rfl

end Filing

namespace Sheet

/-! ## Rules group by group -/

theorem mem_members (rules : List Rule) (g : Text) (r : Rule) :
    r ∈ members rules g ↔ r ∈ rules ∧ r.group = g := by
  simp [members]

theorem mem_groups (rules : List Rule) (r : Rule) (h : r ∈ rules) : r.group ∈ groups rules :=
  List.mem_eraseDups.mpr (List.mem_map_of_mem h)

theorem nodup_groups (rules : List Rule) : (groups rules).Nodup := Repeats.nodup_eraseDups _

open Filing Repeats

variable (scope : Text)

variable {scope} {wanted : Key → Bool}

variable {rules : List Rule}

end Sheet

end NestedCss
