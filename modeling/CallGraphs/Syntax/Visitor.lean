import CallGraphs.Syntax.Statement

/-!
# CallGraphs.Syntax.Visitor

Read-only traversal of the syntax.  A `Visitor` says what happens around
the inside of a scope, a statement or an expression, and at an identifier;
it may act before and after the inside, and it may leave the inside out.
The traversal itself visits the parts of every node from left to right, a
repeated body before its condition.

An operand is visited in a `Role`, which tells how the enclosing expression
uses it.  The effects are those of the monad, so a visitor that fails stops
the traversal.
-/

namespace CallGraphs

/-- How an expression uses an operand. -/
inductive Role where
  /-- It is called. -/
  | callee
  /-- It stands under the adjoint functor. -/
  | adjoint
  /-- It stands under the controlled functor. -/
  | controlled
  /-- Its value is that of the whole: an unwrapped operand or a branch. -/
  | carried
  /-- Its value is used in another way. -/
  | value
  deriving DecidableEq, Repr

/-- What a traversal does at each kind of node.  The hooks that receive an
action decide whether and when the inside is visited. -/
structure Visitor (m : Type → Type) where
  scope : Scope → m Unit → m Unit := fun _ inside => inside
  statement : Statement → m Unit → m Unit := fun _ inside => inside
  expression : Expression → m Unit → m Unit := fun _ inside => inside
  operand : Role → m Unit → m Unit := fun _ inside => inside
  identifier : Identifier → Expression → m Unit

namespace Visitor

variable {m : Type → Type} [Monad m]

/-! ## expressions -/

mutual

/-- Visit an expression. -/
def visitExpression (v : Visitor m) : Expression → m Unit
  | ⟨form, type, resolutions⟩ =>
    v.expression ⟨form, type, resolutions⟩ (v.visitForm ⟨form, type, resolutions⟩ form)

/-- Visit the inside of the expression `e`, whose form is given. -/
def visitForm (v : Visitor m) (e : Expression) : Form → m Unit
  | .literal _ => pure ()
  | .identifier target => v.identifier target e
  | .tuple items => v.visitItems items
  | .array items => v.visitItems items
  | .sizedArray value size => do
    v.operand .value (v.visitExpression value)
    v.operand .value (v.visitExpression size)
  | .range start stop => do
    v.operand .value (v.visitExpression start)
    v.operand .value (v.visitExpression stop)
  | .steppedRange start step stop => do
    v.operand .value (v.visitExpression start)
    v.operand .value (v.visitExpression step)
    v.operand .value (v.visitExpression stop)
  | .item array index => do
    v.operand .value (v.visitExpression array)
    v.operand .value (v.visitExpression index)
  | .field record _ => v.operand .value (v.visitExpression record)
  | .update source accessor value => do
    v.operand .value (v.visitExpression source)
    v.operand .value (v.visitExpression accessor)
    v.operand .value (v.visitExpression value)
  | .unary _ operand => v.operand .value (v.visitExpression operand)
  | .binary _ left right => do
    v.operand .value (v.visitExpression left)
    v.operand .value (v.visitExpression right)
  | .conditional condition ifTrue ifFalse => do
    v.operand .value (v.visitExpression condition)
    v.operand .carried (v.visitExpression ifTrue)
    v.operand .carried (v.visitExpression ifFalse)
  | .unwrap operand => v.operand .carried (v.visitExpression operand)
  | .adjoint operand => v.operand .adjoint (v.visitExpression operand)
  | .controlled operand => v.operand .controlled (v.visitExpression operand)
  | .call callee argument => do
    v.operand .callee (v.visitExpression callee)
    v.operand .value (v.visitExpression argument)

/-- Visit the items of a tuple or an array. -/
def visitItems (v : Visitor m) : List Expression → m Unit
  | [] => pure ()
  | e :: es => do
    v.operand .value (v.visitExpression e)
    v.visitItems es

end

/-! ## statements -/

mutual

/-- Visit the parts of a statement. -/
def visitParts (v : Visitor m) : Statement → m Unit
  | .expression value => v.visitExpression value
  | .returnValue value => v.visitExpression value
  | .failWith value => v.visitExpression value
  | .bind _ value _ => v.visitExpression value
  | .assign _ value => v.visitExpression value
  | .conditional branches => v.visitBranches branches
  | .forLoop _ iterable body => do
    v.visitExpression iterable
    v.scope body (v.visitStatements body)
  | .whileLoop condition body => do
    v.visitExpression condition
    v.scope body (v.visitStatements body)
  | .repeatLoop body condition fixup => do
    v.scope body (v.visitStatements body)
    v.visitExpression condition
    v.scope fixup (v.visitStatements fixup)
  | .conjugation outer inner => do
    v.scope outer (v.visitStatements outer)
    v.scope inner (v.visitStatements inner)
  | .qubitScope _ initializer body => do
    v.visitExpression initializer
    v.scope body (v.visitStatements body)

/-- Visit the branches of a conditional statement. -/
def visitBranches (v : Visitor m) : Branches → m Unit
  | .done => pure ()
  | .otherwise body => v.scope body (v.visitStatements body)
  | .branch condition body rest => do
    v.visitExpression condition
    v.scope body (v.visitStatements body)
    v.visitBranches rest

/-- Visit the statements of a scope. -/
def visitStatements (v : Visitor m) : List Statement → m Unit
  | [] => pure ()
  | s :: rest => do
    v.statement s (v.visitParts s)
    v.visitStatements rest

end

/-- Visit a statement. -/
def visitStatement (v : Visitor m) (s : Statement) : m Unit := v.statement s (v.visitParts s)

/-- Visit a scope. -/
def visitScope (v : Visitor m) (body : Scope) : m Unit := v.scope body (v.visitStatements body)

/-! ## cons equations -/

@[simp] theorem visitStatements_nil (v : Visitor m) : v.visitStatements [] = pure () := rfl

@[simp] theorem visitStatements_cons (v : Visitor m) (s : Statement) (rest : List Statement) :
    v.visitStatements (s :: rest) = (do v.visitStatement s; v.visitStatements rest) := rfl

end Visitor

end CallGraphs
