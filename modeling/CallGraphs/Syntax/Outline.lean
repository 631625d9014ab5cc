import CallGraphs.Syntax.Visitor

/-!
# CallGraphs.Syntax.Outline

Two readings of a body by traversal.  Its *outline* lists every scope,
statement, expression and identifier on the way in; it can leave out the
inside of chosen forms, and it can stop after a number of entries.  Its
*identifiers* are what remains when only those are looked at.

* `Outline.of` — the entries up to the stop, and whether there was one;
* `Scope.identifiers` — the identifiers of a body, in order.
-/

namespace CallGraphs

/-! ## outlines -/

/-- One line of an outline. -/
inductive Outline.Entry where
  | scope (statements : Nat)
  | statement (tag : String)
  | expression (tag : String)
  | reference (name type : String)
  | localVariable (name type : String)
  deriving DecidableEq, Repr

/-- An outline: the entries, and whether the traversal was stopped. -/
structure Outline where
  entries : List Outline.Entry
  stopped : Bool
  deriving DecidableEq, Repr

namespace Outline

/-- A traversal that writes entries and can be stopped. -/
abbrev Writer := EStateM Unit (List Entry)

/-- The entry of an identifier in the expression `e`. -/
def Entry.ofIdentifier (e : Expression) : Identifier → Entry
  | .callable name => .reference name.text e.type.text
  | .localVariable name => .localVariable name e.type.text

/-- Write an entry, then stop if there are more than `limit` of them. -/
def write (limit : Option Nat) (entry : Entry) : Writer Unit := do
  modify (· ++ [entry])
  match limit with
  | some n => if n < (← get).length then throw ()
  | none => pure ()

/-- The visitor that writes an entry at every node and goes inside unless
`skip` holds of the node's tag. -/
def visitor (limit : Option Nat) (skip : String → Bool) : Visitor Writer where
  scope body inside := do
    write limit (.scope body.length)
    inside
  statement s inside := do
    write limit (.statement s.tag)
    unless skip s.tag do inside
  expression e inside := do
    write limit (.expression e.form.tag)
    unless skip e.form.tag do inside
  identifier target e := write limit (.ofIdentifier e target)

/-- The outline of a body. -/
def of (limit : Option Nat) (skip : String → Bool) (body : Scope) : Outline :=
  match (visitor limit skip).visitScope body |>.run [] with
  | .ok _ entries => ⟨entries, false⟩
  | .error _ entries => ⟨entries, true⟩

end Outline

/-! ## identifiers -/

/-- The visitor that collects identifiers and leaves everything else to the
traversal. -/
def Identifier.collector : Visitor (StateM (List Identifier)) where
  identifier target _ := modify (· ++ [target])

/-- The identifiers of a body, in the order of the traversal. -/
def Scope.identifiers (body : Scope) : List Identifier :=
  (Identifier.collector.visitScope body |>.run []).2

/-- The text of an identifier. -/
def Identifier.text : Identifier → String
  | .callable name => name.text
  | .localVariable name => name

end CallGraphs
