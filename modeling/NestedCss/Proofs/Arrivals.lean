import NestedCss.Proofs.MergedCopies
import NestedCss.Proofs.Traces

/-!
# Arrivals

A stack grows by one prelude at a time, so every path that is open has been open by itself before,
and its key has come up. So the key of the scope comes up before all others, and that of bare
keyframes before those of the selectors within them.
-/

set_option autoImplicit false

namespace NestedCss.Filing

variable {scope : Text}

/-- What is merged is no keyframes header if it is merged of conditions. -/
theorem kind_conjoin (cs : List Text) (h : ∀ c ∈ cs, Prelude.kind c = .condition) :
    Prelude.kind (Condition.conjoin cs) = if cs = [] then .selector else .condition := by
  cases cs with
  | nil => rfl
  | cons c cs =>
    have hc := h c (by simp)
    rw [if_neg (by simp)]
    exact Condition.kind_condition _
      (Condition.isCondition_conjoin c cs (Condition.isCondition_of_kind c hc))

theorem kind_ofKind (k : Prelude.Kind) (stack : List Text) :
    ∀ t ∈ ofKind k stack, Prelude.kind t = k := by
  intro t ht
  simpa using (List.mem_filter.mp ht).2

end NestedCss.Filing
