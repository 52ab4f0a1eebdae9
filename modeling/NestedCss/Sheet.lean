import NestedCss.Rule

/-!
# Sheets

Rules are laid out group by group, the groups in the order in which they first come. The rules of a
group stand indented inside its braces; those of no group stand by themselves.
-/

set_option autoImplicit false

namespace NestedCss.Sheet

def groups (rules : List Rule) : List Text := (rules.map Rule.group).eraseDups

def members (rules : List Rule) (group : Text) : List Rule := rules.filter (·.group == group)

def lines (rules : List Rule) : Text := Text.join ['\n'] (rules.map Rule.rendered)

def indented (indent : Text) (rules : List Rule) : Text :=
  Text.join ['\n'] (rules.map fun r => indent ++ r.rendered)

def block (indent group : Text) (rules : List Rule) : Text :=
  if group = [] then lines rules
  else group ++ '{' :: '\n' :: indented indent rules ++ ['\n', '}']

def rendered (indent : Text) (rules : List Rule) : Text :=
  Text.join ['\n'] ((groups rules).map fun g => block indent g (members rules g))

end NestedCss.Sheet
