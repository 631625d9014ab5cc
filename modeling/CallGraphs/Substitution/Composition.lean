import CallGraphs.Error
import CallGraphs.Substitution.Apply

/-!
# CallGraphs.Substitution.Composition

Combining the substitutions in force at a reference into one.  They come as
a chain: the innermost first, that of the caller last.

`Combiner.compose` folds the chain from the inside out.  The types collected
so far are rewritten by the next map, which then adds its own bindings:

1. a parameter not yet bound is bound;
2. a binding that repeats the collected one, or that binds the parameter to
   itself, adds nothing;
3. a collected binding of a parameter to itself gives way;
4. anything else is a conflict.

In the end no parameter may be bound to a larger type that mentions it.

* `compose_nil` — the empty chain;
* `absorb_empty` — an empty map changes nothing.
-/

namespace CallGraphs

/-- A way to combine a chain of substitutions, innermost first. -/
abbrev Combiner := List Substitution → Except BuildError Substitution

namespace Combiner

/-! ## composition -/

/-- Add one binding to the collected ones. -/
def merge (collected : Substitution) (binding : TypeParameter × Ty) :
    Except BuildError Substitution :=
  let (p, t) := binding
  match collected.get? p with
  | none => .ok (collected.insert p t)
  | some existing =>
    if existing = t ∨ t = .parameter p then .ok collected
    else if existing = .parameter p then .ok (collected.insert p t)
    else .error (.resolutionConflict p.text existing.text t.text)

/-- Rewrite the collected types by the next map of the chain, then add its
bindings. -/
def absorb (collected map : Substitution) : Except BuildError Substitution :=
  map.entries.foldlM merge (collected.apply map)

/-- Whether a binding is circular: the parameter stands in a larger type. -/
def circular (binding : TypeParameter × Ty) : Bool :=
  !binding.2.isParameter binding.1 && binding.2.mentions binding.1

/-- Refuse the first circular binding. -/
def checkCircular (s : Substitution) : Except BuildError Substitution :=
  match s.entries.find? circular with
  | some (p, t) => .error (.selfReference p.text t.text)
  | none => .ok s

/-- The composition of a chain of substitutions. -/
def compose : Combiner := fun chain => do
  let collected ← chain.foldlM absorb ∅
  checkCircular collected

/-- An empty map changes nothing. -/
@[simp] theorem absorb_empty (collected : Substitution) : absorb collected ∅ = .ok collected := by
  simp [absorb]; rfl

/-- An empty chain composes to the empty substitution. -/
@[simp] theorem compose_nil : compose [] = .ok ∅ := rfl

/-! ## other combinations -/

/-- Refuse every chain with the same error. -/
def refuse (error : BuildError) : Combiner := fun _ => .error error

/-- Forget the chain. -/
def forget : Combiner := fun _ => .ok ∅

/-- Keep the caller's own map only. -/
def outermost : Combiner := fun chain => .ok (chain.getLast?.getD ∅)

/-- Keep the innermost map only. -/
def innermost : Combiner := fun chain => .ok (chain.head?.getD ∅)

end Combiner

end CallGraphs
