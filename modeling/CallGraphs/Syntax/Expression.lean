import CallGraphs.Substitution.Basic

/-!
# CallGraphs.Syntax.Expression

Checked expressions.  An expression is a form together with its type and
the substitution that the checker fixed for it, which is empty unless the
expression instantiates a generic callable.

* `Expression.reference`, `Expression.call`, … — expressions whose type follows from their parts;
* `Form.tag` — the short name of a form.
-/

namespace CallGraphs

/-! ## leaves -/

/-- What an identifier refers to. -/
inductive Identifier where
  | callable (name : QualifiedName)
  | localVariable (name : String)
  deriving DecidableEq, Repr

/-- Literal values.  A `result` literal is one of the two outcomes of a
measurement. -/
inductive Literal where
  | unit
  | int (value : Int)
  | double (value : Float)
  | bool (value : Bool)
  | string (value : String)
  | result (one : Bool)
  deriving Repr

/-- Operators with one operand. -/
inductive UnaryOperator where
  | negate
  | not
  | bitwiseNot
  deriving DecidableEq, Repr

/-- Operators with two operands. -/
inductive BinaryOperator where
  | add
  | subtract
  | multiply
  | divide
  | modulo
  | power
  | equal
  | notEqual
  | less
  | lessOrEqual
  | greater
  | greaterOrEqual
  | and
  | or
  | bitwiseAnd
  | bitwiseOr
  | bitwiseXor
  | leftShift
  | rightShift
  deriving DecidableEq, Repr

/-! ## expressions -/

mutual

/-- An expression: its form, its type and the substitution fixed for it. -/
structure Expression where
  form : Form
  type : Ty
  resolutions : Substitution

/-- The forms of expressions. -/
inductive Form where
  | literal (value : Literal)
  | identifier (target : Identifier)
  | tuple (items : List Expression)
  | array (items : List Expression)
  | sizedArray (value size : Expression)
  | range (start stop : Expression)
  | steppedRange (start step stop : Expression)
  | item (array index : Expression)
  | field (record : Expression) (name : String)
  | update (source accessor value : Expression)
  | unary (operator : UnaryOperator) (operand : Expression)
  | binary (operator : BinaryOperator) (left right : Expression)
  | conditional (condition ifTrue ifFalse : Expression)
  | unwrap (operand : Expression)
  | adjoint (operand : Expression)
  | controlled (operand : Expression)
  | call (callee argument : Expression)

end

/-- The short name of a literal's form. -/
def Literal.tag : Literal → String
  | .unit => "unit"
  | .int _ => "int"
  | .double _ => "double"
  | .bool _ => "bool"
  | .string _ => "string"
  | .result _ => "result"

/-- The short name of a form. -/
def Form.tag : Form → String
  | .literal value => value.tag
  | .identifier (.callable _) => "global"
  | .identifier (.localVariable _) => "local"
  | .tuple _ => "tuple"
  | .array _ => "array"
  | .sizedArray _ _ => "sized"
  | .range _ _ => "range"
  | .steppedRange _ _ _ => "range"
  | .item _ _ => "item"
  | .field _ _ => "named"
  | .update _ _ _ => "update"
  | .unary _ _ => "unary"
  | .binary _ _ _ => "binary"
  | .conditional _ _ _ => "cond"
  | .unwrap _ => "unwrap"
  | .adjoint _ => "adj"
  | .controlled _ => "ctl"
  | .call _ _ => "call"

/-! ## building expressions -/

namespace Expression

/-- The unit value. -/
def unit : Expression := ⟨.literal .unit, .primitive .unit, ∅⟩

/-- An integer literal. -/
def int (value : Int) : Expression := ⟨.literal (.int value), .primitive .int, ∅⟩

/-- A truth value. -/
def bool (value : Bool) : Expression := ⟨.literal (.bool value), .primitive .bool, ∅⟩

/-- A reference to a callable. -/
def reference (name : QualifiedName) (type : Ty) : Expression :=
  ⟨.identifier (.callable name), type, ∅⟩

/-- A local variable. -/
def localVariable (name : String) (type : Ty) : Expression :=
  ⟨.identifier (.localVariable name), type, ∅⟩

/-- A tuple, whose type is the tuple of the types of its items. -/
def tuple (items : List Expression) : Expression :=
  ⟨.tuple items, .tuple (items.map (·.type)), ∅⟩

/-- A call with a result of the given type. -/
def call (callee argument : Expression) (type : Ty) : Expression :=
  ⟨.call callee argument, type, ∅⟩

/-- The adjoint of a callable value, of the same type. -/
def adjoint (operand : Expression) : Expression := ⟨.adjoint operand, operand.type, ∅⟩

/-- The controlled version of a callable value, of the same type. -/
def controlled (operand : Expression) : Expression := ⟨.controlled operand, operand.type, ∅⟩

/-- The same expression with another substitution fixed for it. -/
def withResolutions (e : Expression) (resolutions : Substitution) : Expression :=
  ⟨e.form, e.type, resolutions⟩

end Expression

end CallGraphs
