import CallGraphs.Program

/-!
# CallGraphs.Graph.Node

Nodes and edges of a call graph.  A node is something that can be called:
a callable, one of its functor variants and, for a generic callable, type
arguments.
-/

namespace CallGraphs

/-- A variant of a callable at given type arguments.  No type arguments is
different from an empty list of them. -/
structure Node where
  callable : QualifiedName
  kind : Variant
  typeArguments : Option (List Ty)
  deriving DecidableEq

namespace Node

/-- By callable, then by variant, then by type arguments, of which none
come first. -/
instance : Ord Node :=
  ⟨compareLex (compareOn (·.callable))
    (compareLex (compareOn (·.kind)) (compareOn (·.typeArguments)))⟩

/-- The body variant of a callable without type arguments. -/
def entry (callable : QualifiedName) : Node := ⟨callable, .body, none⟩

/-- The text of a node: callable, type arguments in brackets if there are
any, and variant in parentheses. -/
def text (n : Node) : String :=
  let arguments := match n.typeArguments with
    | some types => "[" ++ Ty.textList types ++ "]"
    | none => ""
  n.callable.text ++ arguments ++ " (" ++ n.kind.text ++ ")"

theorem entry_inj {a b : QualifiedName} : entry a = entry b ↔ a = b := by
  simp [entry]

end Node

/-- A call dependency, with the substitution in force at the call. -/
structure Edge where
  caller : Node
  callee : Node
  resolutions : Substitution
  deriving DecidableEq

end CallGraphs
