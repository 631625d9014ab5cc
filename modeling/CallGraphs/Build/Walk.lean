import CallGraphs.Build.Progress
import CallGraphs.CallContext
import CallGraphs.Substitution.Stack

/-!
# CallGraphs.Build.Walk

Walking the body of a specialization: one traversal that records a
dependency for every reference to a callable.

A reference uses up the substitutions of the expressions entered since the
last one, combines them with the caller's own, and reads off the type
arguments of the callee.  A callable that is called on the spot yields the
variant of its context; one that is used as a value yields all four, since
a functor may be applied to it out of sight.

* `body` — the walk of a whole body.
-/

namespace CallGraphs

/-- What stays the same during a walk: how names are looked up, how chains
are combined, who the caller is and at which substitution it is walked. -/
structure Site where
  find? : QualifiedName → Option Callable
  combiner : Combiner
  caller : Node
  resolutions : Substitution
  options : Options

/-- The state of a walk: that of the construction, the context of the
present expression and the substitutions that wait for a reference. -/
structure Walk.State where
  progress : Progress
  context : CallContext
  stack : Substitution.Stack

/-- A step of a walk. -/
abbrev Walk := EStateM BuildError Walk.State

namespace Walk

/-! ## frames -/

/-- A step of the construction within a walk. -/
def lift {α : Type} (step : Build α) : Walk α := fun s =>
  match step s.progress with
  | .ok a progress => .ok a { s with progress }
  | .error e progress => .error e { s with progress }

/-- Act in the context of an operand, then return to the present one. -/
def inRole (role : Role) (inside : Walk Unit) : Walk Unit := fun s =>
  match inside { s with context := s.context.enter role } with
  | .ok a s' => .ok a { s' with context := s.context }
  | .error e s' => .error e { s' with context := s.context }

/-- Act with the substitution of an expression on the stack, and cut the
stack back afterwards. -/
def withResolutions (map : Substitution) (inside : Walk Unit) : Walk Unit := do
  let height := (← get).stack.length
  modify fun s => { s with stack := s.stack.push map }
  inside
  modify fun s => { s with stack := s.stack.truncate height }

/-- Drop the substitutions that wait. -/
def clearStack : Walk Unit := modify fun s => { s with stack := ∅ }

/-! ## references -/

/-- Combine the substitutions that wait with the caller's own, and use them
up. -/
def consume (site : Site) : Walk Substitution := do
  let stack := (← get).stack
  lift (Build.noteChain (stack.chain site.resolutions))
  let result := stack.consume site.resolutions site.combiner
  modify fun s => { s with stack := result.2 }
  MonadExcept.ofExcept result.1

/-- The types that a substitution gives to the declared parameters of a
callable that is referred to as `name`, in the order of declaration.  Every
parameter has to be bound. -/
def bindings (caller : Node) (name : QualifiedName) (callable : Callable)
    (combined : Substitution) :
    Except BuildError (List (TypeParameter × Ty)) :=
  callable.parameters.mapM fun p =>
    match combined.get? p with
    | some t => .ok (p, t)
    | none =>
      .error (.unresolvedTypeParameter name.text p.name caller.text)

/-- The variants that a reference reaches in a context. -/
def variants (context : CallContext) : List Variant :=
  if context.direct then [context.variant] else Variant.all

/-- Process a reference to a callable. -/
def reference (site : Site) (name : QualifiedName) : Walk Unit := do
  let combined ← consume site
  match site.find? name with
  | none => throw (.undeclaredCallable name.text)
  | some callable =>
    let bound ← MonadExcept.ofExcept (bindings site.caller name callable combined)
    let typeArguments := if callable.isGeneric then some (bound.map (·.2)) else none
    let resolutions := Substitution.ofList bound
    let context := (← get).context
    (variants context).forM fun kind =>
      lift (Build.record site.options ⟨site.caller, ⟨name, kind, typeArguments⟩, resolutions⟩)

/-! ## bodies -/

/-- The visitor that walks a body.  Nothing is carried over from one
statement to the next. -/
def visitor (site : Site) : Visitor Walk where
  statement _ inside := do
    clearStack
    inside
  expression e inside := withResolutions e.resolutions inside
  operand := inRole
  identifier target _ :=
    match target with
    | .callable name => reference site name
    | .localVariable _ => pure ()

/-- Walk a body, as a step of the construction. -/
def body (site : Site) (scope : Scope) : Build Unit := fun p =>
  match (visitor site).visitScope scope ⟨p, .initial, ∅⟩ with
  | .ok _ s => .ok () s.progress
  | .error e s => .error e s.progress

/-! ## variants of a reference -/

theorem variants_of_direct {context : CallContext} (h : context.direct = true) :
    variants context = [context.variant] := by
  simp [variants, h]

theorem variants_of_not_direct {context : CallContext} (h : context.direct = false) :
    variants context = Variant.all := by
  simp [variants, h]

end Walk

end CallGraphs
