import NestedCss.Proofs.Anchors
import NestedCss.Proofs.Arrivals
import NestedCss.Proofs.Parents
import NestedCss.Proofs.Regrouping

/-!
# Flat css unnested again

Flat css stays as it is when it is unnested again, as long as it reads as it was put together. Then
the composed selectors and the merged conditions are fair copies, each selector comes back when it
is anchored and attached to the scope, and the keys come up in the order in which they came up at
first.
-/

set_option autoImplicit false

namespace NestedCss.Stability

open Scan Filing NestedCss.Path Sheet Containment

/-- The lists that a stack composes. -/
def segments (stack : List Text) : List Text :=
  match innermostKeyframes stack with
  | some (_, above) => above
  | none => ofKind .selector stack

/-- Whether some lists meet in shelter and flush, from the lowest up. -/
def meets : List Text → Bool
  | [] => true
  | t :: ts => sheltered t ts && flushes t ts

/-- Whether the selector of a key comes back when it is put under the scope: in keyframes a step
that the scope does not lead, and elsewhere a list that it leads. -/
def Returns (scope : Text) (k : Key) : Prop :=
  if Prelude.kind k.group = .keyframes then
    Prelude.kind k.selector ≠ .keyframes ∧ ∀ e ∈ entries k.selector, Scope.after? scope e = none
  else Scope.Scoped scope k.selector

instance (scope : Text) (k : Key) : Decidable (Returns scope k) :=
  inferInstanceAs (Decidable (if Prelude.kind k.group = .keyframes then
    Prelude.kind k.selector ≠ .keyframes ∧ ∀ e ∈ entries k.selector, Scope.after? scope e = none
  else Scope.Scoped scope k.selector))

/-- Whether what a stack stands for reads as it is put together and comes back from the scope. -/
structure Steady (scope : Text) (stack : List Text) : Prop where
  meets : meets (segments stack) = true
  returns : Returns scope (Key.ofStack stack)
  spaced : Prelude.kind (Key.ofStack stack).group ≠ .keyframes →
    ∀ c ∈ ofKind .condition stack, Condition.Spaced c

instance (scope : Text) (stack : List Text) : Decidable (Steady scope stack) :=
  decidable_of_iff (meets (segments stack) = true ∧ Returns scope (Key.ofStack stack) ∧
    (Prelude.kind (Key.ofStack stack).group ≠ .keyframes →
      ∀ c ∈ ofKind .condition stack, Condition.Spaced c))
    ⟨fun ⟨hm, hr, hs⟩ => ⟨hm, hr, hs⟩, fun ⟨hm, hr, hs⟩ => ⟨hm, hr, hs⟩⟩

/-- Whether a prelude is taken as it stands, with `&` in front of its entries at most. -/
def Tidy (t : Text) : Prop := Copied t ∧ ParentsLead t

variable {scope : Text}

theorem anchor_of_kind (stack : List Text) (t : Text) (h : Prelude.kind t ≠ .selector) :
    Scope.anchor scope stack t = t := by
  rw [Scope.anchor, if_pos]
  simpa using Or.inr h

theorem pathStack_two (s t : Text) (h : Prelude.kind s ≠ .selector) :
    pathStack scope [s, t] = [scope, s, Scope.anchor scope [scope, s] t] := by
  have hs : Scope.anchor scope [scope] s = s := anchor_of_kind _ _ h
  show [scope, Scope.anchor scope [scope] s,
    Scope.anchor scope [scope, Scope.anchor scope [scope] s] t] = _
  rw [hs]

/-- A step stands for itself in its keyframes. -/
theorem key_keyframes (header s : Text) (hk : Prelude.kind header = .keyframes)
    (hr : Returns scope ⟨header, s⟩) : pathKey scope [header, s] = ⟨header, s⟩ := by
  rw [Returns, if_pos hk] at hr
  obtain ⟨hs, hl⟩ := hr
  have ha : Scope.anchor scope [scope, header] s = s := by
    rw [Scope.anchor]
    split
    · rfl
    · exact Scope.anchorList_eq_self s hl
  rw [pathKey, pathStack_two header s (by simp [hk]), ha, Key.ofStack]
  simp [innermostKeyframes, hs, hk, compose]

/-- Whether no rule of the scope itself stands behind another rule under the same condition. -/
def ScopeFirst (scope : Text) (rules : List Rule) : Prop :=
  ∀ r ∈ rules, Prelude.kind r.group = .condition → r.selector = scope →
    (members rules r.group).head? = some r

instance (scope : Text) (rules : List Rule) : Decidable (ScopeFirst scope rules) :=
  inferInstanceAs (Decidable (∀ r ∈ rules, _ → _ → _))

/-- What is needed of some statements for their flat css to stay. -/
structure Stays (scope : Text) (ts : List Statement) : Prop where
  tidy : ∀ t line, .opening t line ∈ ts → Tidy t
  declarations : ∀ d, .declaration d ∈ ts → ∃ t, d.text = t ++ [';'] ∧ Copied t ∧ t ≠ []
  steady : ∀ p ∈ located [] ts, Steady scope (pathStack scope p.2)
  first : ScopeFirst scope (ledger scope ts).filled

variable {ts : List Statement}

theorem plain_statements (source : Text) :
    ∀ s ∈ (readSource source).statements, ∀ c ∈ s.spelled, Text.Plain c := by
  intro s hs c hc
  have hp : ∀ c ∈ spell (readSource source).statements, Text.Plain c := by
    apply plain_read 1 Draft.empty _ (by simp [Draft.empty])
    rw [lexemes_source]
    exact Text.plain_unifyBreaks source
  exact hp c (List.mem_flatMap.mpr ⟨s, hs, hc⟩)

/-- Without a fault the preludes and declarations of a source are taken as they stand. -/
theorem copied_prelude (source t : Text) (line : Int) (hf : (readSource source).faults = [])
    (ht : .opening t line ∈ (readSource source).statements) : Copied t := by
  obtain ⟨hfair, htrim⟩ := statements_fair source hf _ ht
  exact ⟨hfair, htrim, fun c hc => plain_statements source _ ht c (List.mem_append_left _ hc)⟩

theorem copied_declaration (source : Text) (d : Declaration) (hf : (readSource source).faults = [])
    (hd : .declaration d ∈ (readSource source).statements) :
    ∃ t, d.text = t ++ [';'] ∧ Copied t ∧ t ≠ [] := by
  obtain ⟨t, htext, hfair, htrim, hne⟩ := statements_fair source hf _ hd
  have hplain := plain_statements source _ hd
  refine ⟨t, htext, ⟨hfair, htrim, fun c hc => hplain c ?_⟩, hne⟩
  show c ∈ d.text
  rw [htext]
  exact List.mem_append_left _ hc

end NestedCss.Stability
