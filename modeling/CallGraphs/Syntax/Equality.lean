import CallGraphs.Syntax.Expression

/-!
# CallGraphs.Syntax.Equality

Structural equality of expressions.  Doubles compare as numbers: a NaN
differs from itself, and the two zeros are equal.  So this is a test and
not the equality of the logic.
-/

namespace CallGraphs

/-- Whether two literals are of one kind and have the same value. -/
def Literal.same : Literal → Literal → Bool
  | .unit, .unit => true
  | .int m, .int n => m == n
  | .double x, .double y => x == y
  | .bool a, .bool b => a == b
  | .string s, .string t => s == t
  | .result a, .result b => a == b
  | _, _ => false

mutual

/-- Whether two expressions have the same form, type and substitution. -/
def Expression.same : Expression → Expression → Bool
  | ⟨form, type, resolutions⟩, ⟨form', type', resolutions'⟩ =>
    form.same form' && type == type' && resolutions == resolutions'

/-- Whether two forms are of one kind and have the same parts. -/
def Form.same : Form → Form → Bool
  | .literal value, .literal value' => value.same value'
  | .identifier target, .identifier target' => target == target'
  | .tuple items, .tuple items' => Expression.sameList items items'
  | .array items, .array items' => Expression.sameList items items'
  | .sizedArray value size, .sizedArray value' size' => value.same value' && size.same size'
  | .range start stop, .range start' stop' => start.same start' && stop.same stop'
  | .steppedRange start step stop, .steppedRange start' step' stop' =>
    start.same start' && step.same step' && stop.same stop'
  | .item array index, .item array' index' => array.same array' && index.same index'
  | .field record name, .field record' name' => record.same record' && name == name'
  | .update source accessor value, .update source' accessor' value' =>
    source.same source' && accessor.same accessor' && value.same value'
  | .unary operator operand, .unary operator' operand' =>
    operator == operator' && operand.same operand'
  | .binary operator left right, .binary operator' left' right' =>
    operator == operator' && left.same left' && right.same right'
  | .conditional condition ifTrue ifFalse, .conditional condition' ifTrue' ifFalse' =>
    condition.same condition' && ifTrue.same ifTrue' && ifFalse.same ifFalse'
  | .unwrap operand, .unwrap operand' => operand.same operand'
  | .adjoint operand, .adjoint operand' => operand.same operand'
  | .controlled operand, .controlled operand' => operand.same operand'
  | .call callee argument, .call callee' argument' =>
    callee.same callee' && argument.same argument'
  | _, _ => false

/-- Whether two lists have the same expressions in the same order. -/
def Expression.sameList : List Expression → List Expression → Bool
  | [], [] => true
  | e :: es, e' :: es' => e.same e' && Expression.sameList es es'
  | _, _ => false

end

instance : BEq Expression := ⟨Expression.same⟩

end CallGraphs
