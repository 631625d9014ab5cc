import CallGraphs.Syntax.Expression

/-!
# CallGraphs.Syntax.Statement

Statements and scopes.  A scope is a list of statements; statements hold
expressions and further scopes, whereas expressions hold no scope.
-/

namespace CallGraphs

mutual

/-- The statements of a body. -/
inductive Statement where
  | expression (value : Expression)
  | returnValue (value : Expression)
  | failWith (value : Expression)
  | bind (name : String) (value : Expression) (mutable : Bool)
  | assign (name : String) (value : Expression)
  | conditional (branches : Branches)
  | forLoop (name : String) (iterable : Expression) (body : List Statement)
  | whileLoop (condition : Expression) (body : List Statement)
  | repeatLoop (body : List Statement) (condition : Expression) (fixup : List Statement)
  | conjugation (outer inner : List Statement)
  | qubitScope (name : String) (initializer : Expression) (body : List Statement)

/-- The branches of a conditional statement, in the order in which their
conditions are tried. -/
inductive Branches where
  | done
  | otherwise (body : List Statement)
  | branch (condition : Expression) (body : List Statement) (rest : Branches)

end

/-- A sequence of statements. -/
abbrev Scope := List Statement

/-- The short name of a statement's form. -/
def Statement.tag : Statement → String
  | .expression _ => "expr"
  | .returnValue _ => "return"
  | .failWith _ => "fail"
  | .bind _ _ _ => "let"
  | .assign _ _ => "set"
  | .conditional _ => "if"
  | .forLoop _ _ _ => "for"
  | .whileLoop _ _ => "while"
  | .repeatLoop _ _ _ => "repeat"
  | .conjugation _ _ => "conj"
  | .qubitScope _ _ _ => "qubit"

namespace Branches

/-- The branches of a list of conditions with their bodies, then the body
for the case that none holds. -/
def ofList (branches : List (Expression × Scope)) (default : Option Scope) : Branches :=
  branches.foldr (fun (condition, body) rest => .branch condition body rest)
    (match default with
    | some body => .otherwise body
    | none => .done)

end Branches

end CallGraphs
