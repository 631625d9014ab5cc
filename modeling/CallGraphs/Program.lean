import CallGraphs.Syntax.Statement

/-!
# CallGraphs.Program

Checked programs: namespaces of callables, each with the specializations
that implement its functor variants.

* `Program.find?` — the callable of a name: of several declarations the last one;
* `Callable.templates` — the specializations of a variant without type arguments.
-/

namespace CallGraphs

/-! ## functor variants -/

/-- The functor variants of a callable. -/
inductive Variant where
  | body
  | adjoint
  | controlled
  | controlledAdjoint
  deriving DecidableEq, Repr

namespace Variant

/-- All variants, in order. -/
def all : List Variant := [.body, .adjoint, .controlled, .controlledAdjoint]

/-- The variant reached under the given functors. -/
def ofFunctors : (adjoint controlled : Bool) → Variant
  | false, false => .body
  | true, false => .adjoint
  | false, true => .controlled
  | true, true => .controlledAdjoint

/-- The text of a variant. -/
def text : Variant → String
  | .body => "body"
  | .adjoint => "adjoint"
  | .controlled => "controlled"
  | .controlledAdjoint => "controlled adjoint"

/-- The place of a variant in the order. -/
def rank : Variant → Nat
  | .body => 0
  | .adjoint => 1
  | .controlled => 2
  | .controlledAdjoint => 3

instance : Ord Variant := ⟨compareOn rank⟩

theorem mem_all (v : Variant) : v ∈ all := by
  cases v <;> decide

theorem rank_inj {v w : Variant} : v.rank = w.rank ↔ v = w := by
  cases v <;> cases w <;> decide

end Variant

/-! ## callables -/

/-- What a callable is. -/
inductive CallableKind where
  | function
  | operation
  | typeConstructor
  deriving DecidableEq, Repr

/-- How a specialization is implemented: by a body, or in one of three ways
without one. -/
inductive Implementation where
  | provided (body : Scope)
  | intrinsic
  | external
  | generated

/-- The implementation of one variant of a callable, for all type arguments
or for given ones. -/
structure Specialization where
  kind : Variant
  typeArguments : Option (List Ty)
  implementation : Implementation

namespace Specialization

/-- The statements of a specialization, if it has a body. -/
def body? (s : Specialization) : Option Scope :=
  match s.implementation with
  | .provided body => some body
  | .intrinsic => none
  | .external => none
  | .generated => none

/-- Whether a specialization is for all type arguments. -/
def isTemplate (s : Specialization) : Bool := s.typeArguments.isNone

end Specialization

/-- A callable: its name, its type parameters in the order of declaration
and its specializations. -/
structure Callable where
  name : QualifiedName
  kind : CallableKind
  typeParameters : List String
  specializations : List Specialization

namespace Callable

/-- Whether a callable has type parameters. -/
def isGeneric (c : Callable) : Bool := !c.typeParameters.isEmpty

/-- The declared parameters, each with its owner. -/
def parameters (c : Callable) : List TypeParameter :=
  c.typeParameters.map fun name => ⟨c.name, name⟩

/-- The specializations of a variant that are for all type arguments. -/
def templates (c : Callable) (kind : Variant) : List Specialization :=
  c.specializations.filter fun s => s.kind = kind && s.isTemplate

@[simp] theorem length_parameters (c : Callable) :
    c.parameters.length = c.typeParameters.length := by
  simp [parameters]

end Callable

/-! ## programs -/

/-- A namespace and the callables declared in it.  A callable's own name
says in which namespace it is found. -/
structure Namespace where
  name : String
  callables : List Callable

/-- A checked program. -/
structure Program where
  namespaces : List Namespace

namespace Program

/-- All callables, in program order. -/
def callables (p : Program) : List Callable := p.namespaces.flatMap (·.callables)

/-- The callable of a name; of several declarations the last one. -/
def find? (p : Program) (name : QualifiedName) : Option Callable :=
  p.callables.findRev? (·.name = name)

/-- How many different names are declared. -/
def nameCount (p : Program) : Nat := (p.callables.map (·.name)).eraseDups.length

/-- The callable found for a name has that name. -/
theorem name_of_find? {p : Program} {name : QualifiedName} {c : Callable}
    (h : p.find? name = some c) : c.name = name := by
  rw [find?, List.findRev?_eq_find?_reverse] at h
  simpa using List.find?_some h

/-- The callable found for a name is declared. -/
theorem mem_of_find? {p : Program} {name : QualifiedName} {c : Callable}
    (h : p.find? name = some c) : c ∈ p.callables := by
  rw [find?, List.findRev?_eq_find?_reverse] at h
  simpa using List.mem_of_find?_eq_some h

end Program

end CallGraphs
