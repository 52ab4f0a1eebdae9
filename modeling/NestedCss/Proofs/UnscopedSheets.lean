import NestedCss.Compile
import NestedCss.Proofs.Parents
import NestedCss.Proofs.Regrouping
import NestedCss.Proofs.ScopeCopies

/-!
# Sheets without the scope

The scope is taken away from a sheet as a whole. No class reaches over a mark that a sheet puts
between its texts, so this comes to taking it away from each of them. A selector is meant to change
by it; a group or a declaration changes where the scope stands in it, in a string for one, and then
loses a dot. So the dots of a sheet tell whether anything but selectors has changed.
-/

set_option autoImplicit false

namespace NestedCss

namespace Scope
open Containment

variable {scope : Text}

/-- Whether the scope stands somewhere in the text with no name going on behind it. -/
def standsIn (scope t : Text) : Bool := t.tails.any fun s => (after? scope s).isSome

theorem standsIn_cons (c : Char) (r : Text) :
    standsIn scope (c :: r) = ((after? scope (c :: r)).isSome || standsIn scope r) := by
  rw [standsIn, List.tails_cons, List.any_cons]
  rfl

theorem after?_eq_some_iff (scope t r : Text) :
    after? scope t = some r ↔ t = scope ++ r ∧ r.head?.any Text.isName = false := by
  constructor
  · intro h
    obtain rfl := after?_eq scope t r h
    rw [after?] at h
    simpa [List.isPrefixOf_iff_prefix] using h
  · rintro ⟨rfl, hr⟩
    exact after?_scope scope r hr

theorem after?_self (scope : Text) : after? scope scope = some [] :=
  (after?_eq_some_iff _ _ _).mpr ⟨(List.append_nil scope).symm, rfl⟩

theorem standsIn_scope (hn : scope ≠ []) (r : Text) (hr : r.head?.any Text.isName = false) :
    standsIn scope (scope ++ r) = true := by
  obtain ⟨a, w, rfl⟩ := List.exists_cons_of_ne_nil hn
  have ha := after?_scope (a :: w) r hr
  rw [List.cons_append] at ha ⊢
  rw [standsIn_cons, ha]
  rfl

theorem not_standsIn_nil (hn : scope ≠ []) : standsIn scope [] = false := by
  have ha := after?_of_not_prefix scope [] (mt List.prefix_nil.mp hn)
  simp [standsIn, ha]

theorem not_standsIn_end (s : Text) (h : standsIn scope s = false) : ¬ scope <:+ s := by
  intro he
  have hs : standsIn scope s = true :=
    List.any_eq_true.mpr ⟨scope, (List.mem_tails _ _).mpr he, by rw [after?_self]; rfl⟩
  exact Bool.noConfusion (hs.symm.trans h)

theorem remove_front (hs : IsClass scope) (f : Text) (hf : '.' ∉ f) (t : Text) :
    remove scope (f ++ t) = f ++ remove scope t := by
  obtain ⟨a, w, rfl, -⟩ := hs
  induction f with
  | nil => rfl
  | cons c f ih =>
    rw [List.mem_cons, not_or] at hf
    have ha := after?_of_not_prefix ('.' :: a :: w) (c :: (f ++ t))
      fun hp => hf.1 (List.cons_prefix_cons.mp hp).1
    rw [List.cons_append, remove_cons _ c _ ha, ih hf.2, List.cons_append]

theorem remove_root (hn : scope ≠ []) (r : Text) (hr : r.head?.any Text.isName = false)
    (hb : r.head? ≠ some ' ') :
    remove scope (scope ++ r) = ":root".toList ++ remove scope r := by
  have ht : trace r = (":root".toList, 0) := by
    rw [trace]
    rintro s rfl
    exact hb rfl
  rw [remove_scope hn r hr, ht]
  rfl

/-- As the scope is taken away a text is read to its end: where the scope does not stand a character
is kept, and where it stands it goes with a space behind it or leaves the root. -/
theorem removal_induction {motive : Text → Prop} (hn : scope ≠ []) (nil : motive [])
    (keep : ∀ c r, after? scope (c :: r) = none → motive r → motive (c :: r))
    (space : ∀ r, motive r → motive (scope ++ ' ' :: r))
    (root : ∀ r, r.head?.any Text.isName = false → r.head? ≠ some ' ' → motive r →
      motive (scope ++ r)) (t : Text) : motive t := by
  have hl : 0 < scope.length := List.length_pos_iff.mpr hn
  induction hm : t.length using Nat.strong_induction_on generalizing t with
  | h m ih =>
    cases t with
    | nil => exact nil
    | cons c r =>
      cases ha : after? scope (c :: r) with
      | none => exact keep c r ha (ih _ (by simp [← hm]) r rfl)
      | some s =>
        obtain ⟨he, hs⟩ := (after?_eq_some_iff _ _ _).mp ha
        have hlen := congrArg List.length he
        rw [List.length_append, hm] at hlen
        rw [he]
        by_cases hb : s.head? = some ' '
        · obtain ⟨u, rfl⟩ := List.head?_eq_some_iff.mp hb
          rw [List.length_cons] at hlen
          exact space u (ih _ (by omega) u rfl)
        · exact root s hs hb (ih _ (by omega) s rfl)

/-! ## At a joint -/

theorem after?_joint (c : Char) (hm : c ∉ scope) (s t : Text) (h : after? scope s = none) :
    after? scope (s ++ c :: t) = none := by
  cases ha : after? scope (s ++ c :: t) with
  | none => rfl
  | some r =>
    obtain ⟨he, hr⟩ := (after?_eq_some_iff _ _ _).mp ha
    rcases List.append_eq_append_iff.mp he with ⟨x, rfl, hx⟩ | ⟨x, rfl, rfl⟩
    · cases x with
      | nil =>
        rw [List.append_nil, after?_self] at h
        exact absurd h (by simp)
      | cons d x => exact absurd (by simp [(List.cons.inj hx).1]) hm
    · have hx : x.head?.any Text.isName = false := by
        cases x with
        | nil => rfl
        | cons d x => exact hr
      rw [after?_scope scope x hx] at h
      exact absurd h (by simp)

/-- No match of a class reaches over a character that belongs to no class. A space is taken along
by a scope in front of it. -/
theorem remove_joint (hs : IsClass scope) (c : Char) (hc : Text.isName c = false) (hd : c ≠ '.')
    (s t : Text) :
    remove scope (s ++ c :: t) = remove scope s ++ c :: remove scope t ∨
      c = ' ' ∧ scope <:+ s ∧ ∃ u, remove scope s = u ++ ":root".toList ∧
        remove scope (s ++ c :: t) = u ++ remove scope t := by
  have hn := ne_nil_class hs
  have hm : c ∉ scope := not_mem_class hs c hd (by
    rw [Text.isName, Bool.or_eq_false_iff] at hc
    exact hc.1)
  have h0 := remove_nil hs
  have ht : remove scope (c :: t) = c :: remove scope t :=
    remove_front hs [c] (by simp [hd.symm]) t
  induction s using removal_induction hn with
  | nil =>
    left
    rw [h0, List.nil_append, ht, List.nil_append]
  | keep d r ha ih =>
    have hj := after?_joint c hm (d :: r) t ha
    rw [List.cons_append] at hj ⊢
    rw [remove_cons scope d _ hj, remove_cons scope d r ha]
    rcases ih with ih | ⟨rfl, he, u, hu, hr⟩
    · left
      rw [ih, List.cons_append]
    · right
      exact ⟨rfl, he.trans (List.suffix_cons d r), d :: u, by rw [hu, List.cons_append],
        by rw [hr, List.cons_append]⟩
  | space r ih =>
    rw [List.append_assoc, List.cons_append, remove_space hn, remove_space hn]
    rcases ih with ih | ⟨rfl, he, u, hu, hr⟩
    · exact .inl ih
    · right
      exact ⟨rfl, he.trans (List.suffix_append_of_suffix (List.suffix_cons _ _)), u, hu, hr⟩
  | root r hr hb ih =>
    rw [List.append_assoc, remove_root hn r hr hb]
    cases r with
    | nil =>
      rw [h0, List.append_nil, List.append_nil, List.nil_append]
      by_cases hsp : c = ' '
      · subst hsp
        right
        exact ⟨rfl, List.suffix_refl _, [], by simp, by rw [remove_space hn, List.nil_append]⟩
      · left
        rw [remove_root hn (c :: t) hc (by simp [hsp]), ht]
    | cons d r =>
      rw [remove_root hn (d :: r ++ c :: t) hr hb]
      rcases ih with ih | ⟨rfl, he, u, hu, hr⟩
      · left
        rw [ih, List.append_assoc]
      · right
        exact ⟨rfl, List.suffix_append_of_suffix he, ":root".toList ++ u,
          by rw [hu, List.append_assoc], by rw [hr, List.append_assoc]⟩

/-- Whether taking the scope away from the first text leaves the second exactly when a condition
holds. What goes besides takes dots with it. -/
structure Leaves (scope : Text) (kept : Prop) (t u : Text) : Prop where
  count_le : (remove scope t).count '.' ≤ u.count '.'
  of_count : u.count '.' ≤ (remove scope t).count '.' → kept
  remove_eq : kept → remove scope t = u

namespace Leaves

variable {p q : Prop} {s t u v : Text}

theorem remove_eq_iff (h : Leaves scope p t u) : remove scope t = u ↔ p :=
  ⟨fun he => h.of_count (by rw [he]), h.remove_eq⟩

theorem congr (h : Leaves scope p t u) (hpq : p ↔ q) : Leaves scope q t u :=
  ⟨h.count_le, fun hc => hpq.mp (h.of_count hc), fun hq => h.remove_eq (hpq.mpr hq)⟩

theorem removed (scope t : Text) : Leaves scope True t (remove scope t) :=
  ⟨le_rfl, fun _ => trivial, fun _ => rfl⟩

theorem nil (hs : IsClass scope) : Leaves scope True [] [] := by
  have h := removed scope []
  rwa [remove_nil hs] at h

theorem lost (h : (remove scope t).count '.' < u.count '.') (hp : ¬ p) : Leaves scope p t u :=
  ⟨h.le, fun hc => absurd hc h.not_ge, fun h => absurd h hp⟩

/-- Where the scope stands a dot goes. -/
theorem unchanged (hs : IsClass scope) (t : Text) :
    Leaves scope (standsIn scope t = false) t t := by
  have hn := ne_nil_class hs
  have hdot : 0 < scope.count '.' := by
    obtain ⟨a, w, rfl, -⟩ := hs
    simp
  induction t using removal_induction hn with
  | nil => exact (nil hs).congr (by simp [not_standsIn_nil hn])
  | keep c r ha ih =>
    have hr := remove_cons scope c r ha
    have hst : standsIn scope (c :: r) = standsIn scope r := by
      rw [standsIn_cons, ha]
      rfl
    rw [hst]
    constructor
    · rw [hr, List.count_cons, List.count_cons]
      exact Nat.add_le_add_right ih.count_le _
    · intro hc
      rw [hr, List.count_cons, List.count_cons] at hc
      exact ih.of_count (Nat.le_of_add_le_add_right hc)
    · intro h
      rw [hr, ih.remove_eq h]
  | space r ih =>
    apply lost
    · have hle := ih.count_le
      rw [remove_space hn, List.count_append, List.count_cons]
      omega
    · simp [standsIn_scope hn (' ' :: r) rfl]
  | root r hr hb ih =>
    apply lost
    · have hle := ih.count_le
      have hroot : ":root".toList.count '.' = 0 := by decide
      rw [remove_root hn r hr hb, List.count_append, List.count_append]
      omega
    · simp [standsIn_scope hn r hr]

/-- The texts on both sides of a joint are left by themselves. -/
theorem joint (hs : IsClass scope) (c : Char) (hc : Text.isName c = false) (hd : c ≠ '.')
    (h : Leaves scope p s u) (k : Leaves scope q t v) (hj : c = ' ' → p → ¬ scope <:+ s) :
    Leaves scope (p ∧ q) (s ++ c :: t) (u ++ c :: v) := by
  have hcount : (remove scope (s ++ c :: t)).count '.' =
      (remove scope s).count '.' + (remove scope t).count '.' := by
    rcases remove_joint hs c hc hd s t with he | ⟨-, -, w, hw, he⟩
    · rw [he, List.count_append, List.count_cons_of_ne hd]
    · rw [he, hw, List.count_append, List.count_append]
      rfl
  have hv : (u ++ c :: v).count '.' = u.count '.' + v.count '.' := by
    rw [List.count_append, List.count_cons_of_ne hd]
  have hsu := h.count_le
  have htv := k.count_le
  refine ⟨by omega, fun hle => ⟨h.of_count (by omega), k.of_count (by omega)⟩, ?_⟩
  rintro ⟨hp, hq⟩
  rcases remove_joint hs c hc hd s t with he | ⟨hb, he, -⟩
  · rw [he, h.remove_eq hp, k.remove_eq hq]
  · exact absurd he (hj hb hp)

/-- What holds no dot is left in front of a text. -/
theorem front (hs : IsClass scope) (f : Text) (hf : '.' ∉ f) (h : Leaves scope p t u) :
    Leaves scope p (f ++ t) (f ++ u) := by
  have he := remove_front hs f hf t
  constructor
  · rw [he, List.count_append, List.count_append]
    exact Nat.add_le_add_left h.count_le _
  · intro hc
    rw [he, List.count_append, List.count_append] at hc
    exact h.of_count (Nat.le_of_add_le_add_left hc)
  · intro hp
    rw [he, h.remove_eq hp]

theorem join {α : Type} (hs : IsClass scope) (c : Char) (hc : Text.isName c = false) (hd : c ≠ '.')
    (kept : α → Prop) (f g : α → Text) (l : List α)
    (h : ∀ x ∈ l, Leaves scope (kept x) (f x) (g x))
    (hj : c = ' ' → ∀ x ∈ l, kept x → ¬ scope <:+ f x) :
    Leaves scope (∀ x ∈ l, kept x) (Text.join [c] (l.map f)) (Text.join [c] (l.map g)) := by
  induction l with
  | nil => exact (nil hs).congr (by simp)
  | cons x l ih =>
    cases l with
    | nil => simpa [Text.join] using h x (by simp)
    | cons y l =>
      have hi := ih (fun z hz => h z (by simp [hz])) fun hb z hz => hj hb z (by simp [hz])
      have hx := joint hs c hc hd (h x (by simp)) hi fun hb => hj hb x (by simp)
      rw [List.map_cons, List.map_cons, List.map_cons, List.map_cons, Text.join_cons_cons,
        Text.join_cons_cons, List.singleton_append, List.singleton_append]
      exact hx.congr List.forall_mem_cons.symm

end Leaves

end Scope

open Scope Containment

/-- The rule with the scope taken away from its selector. -/
def Rule.unscoped (scope : Text) (r : Rule) : Rule := { r with selector := remove scope r.selector }

variable {scope : Text}

theorem Rule.leaves_rendered (hs : IsClass scope) (r : Rule) :
    Leaves scope (∀ d ∈ r.lines, standsIn scope d.text = false) r.rendered
      (r.unscoped scope).rendered := by
  have hr : ∀ r : Rule, r.rendered =
      r.selector ++ '{' :: (Text.join [' '] (r.lines.map Declaration.text) ++ '}' :: []) := by
    intro r
    simp [Rule.rendered]
  have hl := Leaves.join hs ' ' (by decide) (by decide) (fun d => standsIn scope d.text = false)
    Declaration.text Declaration.text r.lines (fun d _ => Leaves.unchanged hs d.text)
    fun _ d _ hd => not_standsIn_end d.text hd
  have he := hl.joint hs '}' (by decide) (by decide) (Leaves.nil hs) (by simp)
  have hb := (Leaves.removed scope r.selector).joint hs '{' (by decide) (by decide) he (by simp)
  rw [hr, hr (r.unscoped scope)]
  exact hb.congr (by simp)

namespace Sheet

/-- Whether the scope stands in none of the groups and declarations of some rules. -/
def Spared (scope : Text) (rules : List Rule) : Prop :=
  ∀ r ∈ rules, standsIn scope r.group = false ∧ ∀ d ∈ r.lines, standsIn scope d.text = false

instance (scope : Text) (rules : List Rule) : Decidable (Spared scope rules) :=
  inferInstanceAs (Decidable (∀ r ∈ rules, _ ∧ _))

theorem groups_unscoped (scope : Text) (rules : List Rule) :
    groups (rules.map (Rule.unscoped scope)) = groups rules := by
  rw [groups, groups, List.map_map]
  rfl

theorem members_unscoped (scope g : Text) (rules : List Rule) :
    members (rules.map (Rule.unscoped scope)) g = (members rules g).map (Rule.unscoped scope) := by
  rw [members, members, List.filter_map]
  rfl

theorem leaves_block (hs : IsClass scope) (indent g : Text) (hi : '.' ∉ indent) (rs : List Rule) :
    Leaves scope
      (standsIn scope g = false ∧ ∀ r ∈ rs, ∀ d ∈ r.lines, standsIn scope d.text = false)
      (block indent g rs) (block indent g (rs.map (Rule.unscoped scope))) := by
  have hn := not_standsIn_nil (ne_nil_class hs)
  by_cases hg : g = []
  · subst hg
    rw [block, block, if_pos rfl, if_pos rfl, lines, lines, List.map_map]
    apply (Leaves.join hs '\n' (by decide) (by decide) _ Rule.rendered _ rs
      (fun r _ => r.leaves_rendered hs) (by simp)).congr
    simp [hn]
  · have hb : ∀ rs,
        block indent g rs = g ++ '{' :: ('\n' :: (indented indent rs ++ '\n' :: ['}'])) := by
      intro rs
      simp [block, hg]
    have hj : Leaves scope (∀ r ∈ rs, ∀ d ∈ r.lines, standsIn scope d.text = false)
        (indented indent rs) (indented indent (rs.map (Rule.unscoped scope))) := by
      rw [indented, indented, List.map_map]
      exact Leaves.join hs '\n' (by decide) (by decide) _ (fun r => indent ++ r.rendered) _ rs
        (fun r _ => (r.leaves_rendered hs).front hs indent hi) (by simp)
    have he := (hj.joint hs '\n' (by decide) (by decide) ((Leaves.nil hs).front hs ['}'] (by simp))
      (by simp)).front hs ['\n'] (by simp)
    have hu := (Leaves.unchanged hs g).joint hs '{' (by decide) (by decide) he (by simp)
    rw [hb, hb]
    exact hu.congr (by simp)

theorem leaves_rendered (hs : IsClass scope) (indent : Text) (hi : '.' ∉ indent)
    (rules : List Rule) :
    Leaves scope (Spared scope rules) (rendered indent rules)
      (rendered indent (rules.map (Rule.unscoped scope))) := by
  have hl := Leaves.join hs '\n' (by decide) (by decide) _
    (fun g => block indent g (members rules g)) _ (groups rules)
    (fun g _ => leaves_block hs indent g hi (members rules g)) (by simp)
  rw [rendered, rendered, groups_unscoped]
  simp only [members_unscoped]
  apply hl.congr
  constructor
  · intro h r hr
    obtain ⟨hg, hm⟩ := h r.group (mem_groups rules r hr)
    exact ⟨hg, hm r ((mem_members rules _ r).mpr ⟨hr, rfl⟩)⟩
  · intro h g hg
    obtain ⟨s, hs, rfl⟩ := List.mem_map.mp (List.mem_eraseDups.mp hg)
    exact ⟨(h s hs).1, fun r hr => (h r ((mem_members rules _ r).mp hr).1).2⟩

end Sheet

namespace Unnesting
open Scan

/-- Css whose rules hold everywhere is the flat css with nothing but selectors changed exactly when
the scope stands in none of its groups and declarations. -/
theorem global_changes_selectors_iff (hs : IsClass scope) (source : Text) (settings : Settings)
    (hi : '.' ∉ settings.indent) :
    let rules := (start source scope settings).run.book.filled
    (unnest source scope settings).text = Sheet.rendered settings.indent rules ∧
      ((unnestGlobally source scope settings).text =
          Sheet.rendered settings.indent (rules.map (Rule.unscoped scope)) ↔
        Sheet.Spared scope rules) := by
  intro rules
  have ht : (unnest source scope settings).text = Sheet.rendered settings.indent rules := by
    have hr : (start source scope settings).run.settings = settings := settings_run _
    show Sheet.rendered (start source scope settings).run.settings.indent rules = _
    rw [hr]
  refine ⟨ht, ?_⟩
  show remove scope (unnest source scope settings).text = _ ↔ _
  rw [ht]
  exact (Sheet.leaves_rendered hs settings.indent hi rules).remove_eq_iff

theorem global_changes_selectors_of_cards :
    let source := ("@media (width > 3px)\x7b.a,&:hover\x7bcontent:\".s-x .sx\";" ++
      "background:url(a.svg);\x7d\x7dtop:0;").toList
    let rules := (start source ".s".toList Settings.standard).run.book.filled
    '.' ∉ Settings.standard.indent ∧ Sheet.Spared ".s".toList rules ∧
      (unnestGlobally source ".s".toList Settings.standard).text =
        Sheet.rendered [' ', ' '] (rules.map (Rule.unscoped ".s".toList)) := by
  intro source rules
  have hs : IsClass ".s".toList := ⟨'s', [], rfl, by decide⟩
  have hi : '.' ∉ Settings.standard.indent := by decide
  have hr : Sheet.Spared ".s".toList rules := by decide +kernel
  exact ⟨hi, hr, (global_changes_selectors_iff hs source Settings.standard hi).2.mpr hr⟩

/-- A string that holds the scope is not the same afterwards, whatever the selectors are. -/
theorem global_changes_string :
    ¬ ∀ source scope : Text, IsClass scope → (readSource source).faults = [] →
      ∃ rules : List Rule,
        rules.map (fun r => (r.group, r.lines)) =
            (start source scope Settings.standard).run.book.filled.map
              (fun r => (r.group, r.lines)) ∧
          (unnestGlobally source scope Settings.standard).text =
            Sheet.rendered Settings.standard.indent rules := by
  intro hall
  have hs : IsClass ".s".toList := ⟨'s', [], rfl, by decide⟩
  obtain ⟨rules, hr, ht⟩ :=
    hall ".a\x7bcontent:\".s\";\x7d".toList ".s".toList hs (by decide +kernel)
  have hf : (start ".a\x7bcontent:\".s\";\x7d".toList ".s".toList
      Settings.standard).run.book.filled.map (fun r => (r.group, r.lines)) =
      [([], [⟨"content:\".s\";".toList, 1⟩])] := by
    decide +kernel
  have hg : (unnestGlobally ".a\x7bcontent:\".s\";\x7d".toList ".s".toList
      Settings.standard).text = ".a\x7bcontent:\":root\";\x7d".toList := by
    decide +kernel
  rw [hf] at hr
  obtain ⟨r, rfl, he⟩ := List.map_eq_singleton_iff.mp hr
  obtain ⟨hn, hl⟩ := Prod.mk.inj he
  have hb : Sheet.rendered Settings.standard.indent [r] =
      r.selector ++ "\x7bcontent:\".s\";\x7d".toList := by
    simp [Sheet.rendered, Sheet.groups, Sheet.members, Sheet.block, Sheet.lines, Rule.rendered,
      List.eraseDups_cons, Text.join, hn, hl]
  rw [hg, hb] at ht
  have hend : ".s\";\x7d".toList <:+ ".a\x7bcontent:\":root\";\x7d".toList := by
    rw [ht]
    exact List.suffix_append_of_suffix (by decide)
  exact absurd hend (by decide)

end Unnesting

end NestedCss
