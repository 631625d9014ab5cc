import CallGraphs.Program
import CallGraphs.Syntax.Visitor

/-!
# CallGraphs.CallContext

Where an expression stands: whether the enclosing expression calls it, and
under which functors.  Adjoint is an involution, and controlled is
idempotent.

* `enter` — the context of an operand, from its role;
* `variant` — the variant that a direct call reaches.
-/

namespace CallGraphs

/-- The position and the functors of an expression. -/
structure CallContext where
  direct : Bool
  adjoint : Bool
  controlled : Bool
  deriving DecidableEq, Repr

namespace CallContext

/-- The context of an expression in a statement. -/
def initial : CallContext := ⟨false, false, false⟩

instance : Inhabited CallContext := ⟨initial⟩

/-- The context of the callee of a call; the functors stay in force. -/
def asCallee (c : CallContext) : CallContext := { c with direct := true }

/-- The context of an operand whose value is used. -/
def asValue (c : CallContext) : CallContext := { c with direct := false }

/-- The context under the adjoint functor. -/
def toggleAdjoint (c : CallContext) : CallContext := { c with adjoint := !c.adjoint }

/-- The context under the controlled functor. -/
def setControlled (c : CallContext) : CallContext := { c with controlled := true }

/-- The context of an operand. -/
def enter (c : CallContext) : Role → CallContext
  | .callee => c.asCallee
  | .adjoint => c.toggleAdjoint
  | .controlled => c.setControlled
  | .carried => c
  | .value => c.asValue

/-- The variant that a direct call reaches. -/
def variant (c : CallContext) : Variant := .ofFunctors c.adjoint c.controlled

@[simp] theorem toggleAdjoint_toggleAdjoint (c : CallContext) :
    c.toggleAdjoint.toggleAdjoint = c := by
  simp [toggleAdjoint]

@[simp] theorem setControlled_setControlled (c : CallContext) :
    c.setControlled.setControlled = c.setControlled := rfl

@[simp] theorem variant_asCallee (c : CallContext) : c.asCallee.variant = c.variant := rfl

@[simp] theorem variant_asValue (c : CallContext) : c.asValue.variant = c.variant := rfl

end CallContext

end CallGraphs
