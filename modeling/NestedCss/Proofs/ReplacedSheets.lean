import NestedCss.Proofs.Repeats
import NestedCss.Proofs.Replacing
import NestedCss.Sheet

/-!
# Sheets with a word replaced

A sheet puts none but characters of no word between the texts of its rules. So a word that is
replaced in the texts of the rules is replaced all over the sheet, as long as the groups stay apart.
-/

set_option autoImplicit false

namespace NestedCss

namespace Text

variable {w : Text}

theorem replaceAll_nonwords (hw : IsWordText w) (new s t : Text)
    (hs : ∀ c ∈ s, isWord c = false) : replaceAll w new (s ++ t) = s ++ replaceAll w new t := by
  induction s with
  | nil => rfl
  | cons c s ih =>
    rw [List.cons_append, replaceAll_nonword hw new c _ (hs c (by simp)),
      ih fun d hd => hs d (by simp [hd]), List.cons_append]

end Text

open Text

/-- The key with a text replaced wherever it stands. -/
def Key.replaced (old new : Text) (k : Key) : Key :=
  ⟨replaceAll old new k.group, replaceAll old new k.selector⟩

def Declaration.replaced (old new : Text) (d : Declaration) : Declaration :=
  ⟨replaceAll old new d.text, d.line⟩

def Rule.replaced (old new : Text) (r : Rule) : Rule :=
  ⟨replaceAll old new r.group, replaceAll old new r.selector,
    r.lines.map (Declaration.replaced old new)⟩

variable {w : Text}

theorem Rule.rendered_replaced (hw : IsWordText w) (new : Text) (r : Rule) :
    (r.replaced w new).rendered = replaceAll w new r.rendered := by
  have ht : (r.lines.map (Declaration.replaced w new)).map Declaration.text =
      (r.lines.map Declaration.text).map (replaceAll w new) := by
    rw [List.map_map, List.map_map]
    rfl
  have hr : ∀ r : Rule, r.rendered =
      r.selector ++ '{' :: (join [' '] (r.lines.map Declaration.text) ++ '}' :: []) := fun r => by
    simp [Rule.rendered]
  rw [hr, hr r, replaceAll_beside hw new _ '{' _ (by decide),
    replaceAll_beside hw new _ '}' _ (by decide), replaceAll_join hw new ' ' (by decide), ← ht]
  rfl

namespace Sheet

/-- Whether the groups of some rules are told from one another when a text is replaced. -/
def KeepsGroups (old new : Text) (rules : List Rule) : Prop :=
  ∀ r ∈ rules, replaceAll new old (replaceAll old new r.group) = r.group

variable {new : Text} {rules : List Rule}

theorem groups_replaced (h : KeepsGroups w new rules) :
    groups (rules.map (Rule.replaced w new)) = (groups rules).map (replaceAll w new) := by
  rw [groups, groups, ← Repeats.eraseDups_map (replaceAll w new) (replaceAll new w), List.map_map,
    List.map_map]
  · rfl
  · intro g hg
    obtain ⟨r, hr, rfl⟩ := List.mem_map.mp hg
    exact h r hr

theorem members_replaced (h : KeepsGroups w new rules) (g : Text) (hg : g ∈ groups rules) :
    members (rules.map (Rule.replaced w new)) (replaceAll w new g) =
      (members rules g).map (Rule.replaced w new) := by
  obtain ⟨s, hs, rfl⟩ := List.mem_map.mp (List.mem_eraseDups.mp hg)
  rw [members, members, List.filter_map]
  congr 1
  refine List.filter_congr fun r hr => ?_
  have he : replaceAll w new r.group = replaceAll w new s.group ↔ r.group = s.group :=
    ⟨fun he => by rw [← h r hr, he, h s hs], congrArg _⟩
  rw [Function.comp_apply, Bool.eq_iff_iff, beq_iff_eq, beq_iff_eq]
  exact he

theorem block_replaced (hw : IsWordText w) (h : KeepsGroups w new rules) (indent g : Text)
    (hi : ∀ c ∈ indent, isWord c = false) (hg : g ∈ groups rules) (rs : List Rule) :
    block indent (replaceAll w new g) (rs.map (Rule.replaced w new)) =
      replaceAll w new (block indent g rs) := by
  obtain ⟨s, hs, rfl⟩ := List.mem_map.mp (List.mem_eraseDups.mp hg)
  have hn : replaceAll w new s.group = [] ↔ s.group = [] :=
    ⟨fun he => by rw [← h s hs, he]; rfl, fun he => by rw [he]; rfl⟩
  by_cases hsn : s.group = []
  · rw [block, block, if_pos hsn, if_pos (hn.mpr hsn), lines, lines,
      replaceAll_join hw new '\n' (by decide), List.map_map, List.map_map]
    simp only [Function.comp_def, Rule.rendered_replaced hw]
  · have hr : ∀ r : Rule, indent ++ (r.replaced w new).rendered =
        replaceAll w new (indent ++ r.rendered) := fun r => by
      rw [Rule.rendered_replaced hw, replaceAll_nonwords hw new _ _ hi]
    have hj : indented indent (rs.map (Rule.replaced w new)) =
        replaceAll w new (indented indent rs) := by
      rw [indented, indented, replaceAll_join hw new '\n' (by decide), List.map_map, List.map_map]
      simp only [Function.comp_def, hr]
    have hb : ∀ (g : Text) (rs : List Rule), g ≠ [] →
        block indent g rs = g ++ '{' :: '\n' :: (indented indent rs ++ '\n' :: '}' :: []) := by
      intro g rs hg
      simp [block, hg]
    rw [hb _ _ (mt hn.mp hsn), hb _ rs hsn, hj, replaceAll_beside hw new _ '{' _ (by decide),
      replaceAll_nonword hw new '\n' _ (by decide), replaceAll_beside hw new _ '\n' _ (by decide),
      replaceAll_nonword hw new '}' _ (by decide)]
    rfl

/-- Replacing a word in all rules replaces it in their sheet. -/
theorem rendered_replaced (hw : IsWordText w) (h : KeepsGroups w new rules) (indent : Text)
    (hi : ∀ c ∈ indent, isWord c = false) :
    rendered indent (rules.map (Rule.replaced w new)) =
      replaceAll w new (rendered indent rules) := by
  rw [rendered, rendered, replaceAll_join hw new '\n' (by decide), groups_replaced h, List.map_map,
    List.map_map]
  congr 1
  refine List.map_congr_left fun g hg => ?_
  rw [Function.comp_apply, Function.comp_apply, members_replaced h g hg,
    block_replaced hw h indent g hi hg]

end Sheet

end NestedCss
