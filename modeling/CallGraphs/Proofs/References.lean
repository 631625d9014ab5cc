import CallGraphs.CallContext
import CallGraphs.Syntax.Outline

/-!
# CallGraphs.Proofs.References

The references to callables that a body holds, read off the tree without
walking it.  Every reference comes with its surroundings within the root
expression of its statement, seen from the reference outwards:

* `steps` — how each enclosing expression uses the part that holds the
  reference;
* `frames` — the enclosing expressions, the one of the reference itself
  first, each with its substitution and with the number of references that
  stand in it before this one.

From the steps follow the functors over a reference and whether it is called
on the spot; from the frames follow the substitutions that wait for it.

* `maps_within_zero`, `maps_within_succ` — the substitution of an expression
  waits for its first reference only;
* `direct_contextIn_iff` — the context of a walk at a reference is given by
  its steps.
-/

namespace CallGraphs

/-- An expression around a reference: the substitution fixed for it, and how
many references stand in it before this one. -/
structure Frame where
  resolutions : Substitution
  earlier : Nat

/-- A reference to a callable with its surroundings, from the inside out. -/
structure Reference where
  name : QualifiedName
  steps : List Role
  frames : List Frame

namespace Reference

/-! ## surroundings -/

/-- A reference with nothing around it. -/
def bare (name : QualifiedName) : Reference := ⟨name, [], []⟩

/-- The reference seen from one step further out. -/
def under (role : Role) (r : Reference) : Reference := { r with steps := r.steps ++ [role] }

/-- The reference seen from outside of an expression that holds `earlier`
references before it. -/
def within (resolutions : Substitution) (earlier : Nat) (r : Reference) : Reference :=
  { r with frames := r.frames ++ [⟨resolutions, earlier⟩] }

/-- Whether an odd number of adjoint functors stands over the reference. -/
def adjoint (r : Reference) : Bool := r.steps.count .adjoint % 2 == 1

/-- Whether a controlled functor stands over the reference. -/
def controlled (r : Reference) : Bool := r.steps.contains .controlled

/-- A reference is called on the spot if an enclosing call is entered on the
side of its callee and from there on nothing uses the reference as a value. -/
def Direct (r : Reference) : Prop :=
  ∃ inner outer, r.steps = inner ++ .callee :: outer ∧
    ∀ role ∈ inner, role = .adjoint ∨ role = .controlled ∨ role = .carried ∨ role = .callee

/-- The substitutions that wait for a reference: those of the enclosing
expressions in which it is the first reference, from the inside out, without
the empty ones. -/
def maps (r : Reference) : List Substitution :=
  (r.frames.filter fun frame => frame.earlier = 0 ∧ frame.resolutions.isEmpty = false).map
    (·.resolutions)

/-- What is combined at a reference: the substitutions that wait for it, then
that of the caller. -/
def chain (r : Reference) (caller : Substitution) : List Substitution := r.maps ++ [caller]

@[simp] theorem name_under (role : Role) (r : Reference) : (r.under role).name = r.name := rfl

@[simp] theorem name_within (s : Substitution) (i : Nat) (r : Reference) :
    (r.within s i).name = r.name := rfl

@[simp] theorem maps_under (role : Role) (r : Reference) : (r.under role).maps = r.maps := rfl

@[simp] theorem maps_bare (name : QualifiedName) : (bare name).maps = [] := rfl

/-- The first reference of an expression takes its substitution, unless that
is empty. -/
theorem maps_within_zero (s : Substitution) (r : Reference) :
    (r.within s 0).maps = if s.isEmpty then r.maps else r.maps ++ [s] := by
  cases h : s.isEmpty <;> simp [maps, within, List.filter_append, h]

/-- A later reference of an expression does not. -/
theorem maps_within_succ (s : Substitution) (i : Nat) (r : Reference) :
    (r.within s (i + 1)).maps = r.maps := by
  simp [maps, within, List.filter_append]

@[simp] theorem chain_under (role : Role) (r : Reference) (caller : Substitution) :
    (r.under role).chain caller = r.chain caller := rfl

@[simp] theorem chain_within_succ (s : Substitution) (i : Nat) (r : Reference)
    (caller : Substitution) : (r.within s (i + 1)).chain caller = r.chain caller := by
  rw [chain, chain, maps_within_succ]

/-! ## functors -/

/-- What a walk finds out about the position of a reference on its way down,
from the context `c` of the expression that holds it. -/
def contextIn (c : CallContext) (r : Reference) : CallContext :=
  r.steps.foldr (fun role c => c.enter role) c

@[simp] theorem contextIn_bare (c : CallContext) (name : QualifiedName) :
    (bare name).contextIn c = c := rfl

@[simp] theorem contextIn_within (c : CallContext) (s : Substitution) (i : Nat) (r : Reference) :
    (r.within s i).contextIn c = r.contextIn c := rfl

/-- One step further out is one step more on the way down. -/
theorem contextIn_under (c : CallContext) (role : Role) (r : Reference) :
    (r.under role).contextIn c = r.contextIn (c.enter role) := by
  simp [contextIn, under]

/-- Adjoint functors on the way down cancel in pairs. -/
theorem adjoint_contextIn (r : Reference) : (r.contextIn .initial).adjoint = r.adjoint := by
  obtain ⟨name, steps, frames⟩ := r
  simp only [contextIn, adjoint]
  induction steps with
  | nil => rfl
  | cons role steps ih =>
      have hparity : ((steps.count .adjoint + 1) % 2 == 1) = !(steps.count .adjoint % 2 == 1) := by
        rcases Nat.mod_two_eq_zero_or_one (steps.count .adjoint) with h | h <;>
          simp [Nat.add_mod, h]
      cases role with
      | adjoint => simpa [CallContext.enter, CallContext.toggleAdjoint, hparity] using ih
      | callee => simpa [CallContext.enter, CallContext.asCallee] using ih
      | controlled => simpa [CallContext.enter, CallContext.setControlled] using ih
      | carried => simpa [CallContext.enter] using ih
      | value => simpa [CallContext.enter, CallContext.asValue] using ih

/-- One controlled functor on the way down is as good as several. -/
theorem controlled_contextIn (r : Reference) :
    (r.contextIn .initial).controlled = r.controlled := by
  obtain ⟨name, steps, frames⟩ := r
  simp only [contextIn, controlled]
  induction steps with
  | nil => rfl
  | cons role steps ih =>
      cases role with
      | controlled => simp [CallContext.enter, CallContext.setControlled]
      | adjoint => simpa [CallContext.enter, CallContext.toggleAdjoint] using ih
      | callee => simpa [CallContext.enter, CallContext.asCallee] using ih
      | carried => simpa [CallContext.enter] using ih
      | value => simpa [CallContext.enter, CallContext.asValue] using ih

/-- A reference is called on the spot if the innermost step is a call of it,
or if that step hands it on and the steps outside call it. -/
theorem direct_cons_iff {name : QualifiedName} {role : Role} {steps : List Role}
    {frames : List Frame} :
    Direct ⟨name, role :: steps, frames⟩ ↔
      role = .callee ∨ (role ≠ .value ∧ Direct ⟨name, steps, frames⟩) := by
  constructor
  · rintro ⟨inner, outer, hsteps, hinner⟩
    cases inner with
    | nil => exact .inl (List.cons.inj hsteps).1
    | cons x inner =>
        obtain ⟨rfl, hrest⟩ := List.cons.inj hsteps
        refine .inr ⟨fun hvalue => ?_, inner, outer, hrest, fun y hy => ?_⟩
        · simpa [hvalue] using hinner role List.mem_cons_self
        · exact hinner y (List.mem_cons_of_mem role hy)
  · rintro (rfl | ⟨hvalue, inner, outer, hsteps, hinner⟩)
    · exact ⟨[], steps, rfl, by simp⟩
    · refine ⟨role :: inner, outer, congrArg (role :: ·) hsteps, fun y hy => ?_⟩
      rcases List.mem_cons.1 hy with rfl | hy
      · cases y <;> simp_all
      · exact hinner y hy

/-- A walk finds out whether a reference is called on the spot. -/
theorem direct_contextIn_iff (r : Reference) : (r.contextIn .initial).direct = true ↔ r.Direct := by
  obtain ⟨name, steps, frames⟩ := r
  simp only [contextIn]
  induction steps with
  | nil => simp [Direct, CallContext.initial]
  | cons role steps ih =>
      rw [direct_cons_iff, ← ih]
      cases role <;>
        simp [CallContext.enter, CallContext.toggleAdjoint, CallContext.setControlled,
          CallContext.asCallee, CallContext.asValue]

instance (r : Reference) : Decidable r.Direct := decidable_of_iff _ r.direct_contextIn_iff

/-- The variants of a callable that a reference reaches: the one of its
functors if it is called on the spot, else all four. -/
def variants (r : Reference) : List Variant :=
  if r.Direct then [.ofFunctors r.adjoint r.controlled]
  else [.body, .adjoint, .controlled, .controlledAdjoint]

/-- A reference reaches some variant. -/
theorem variants_ne_nil (r : Reference) : r.variants ≠ [] := by
  unfold variants
  split <;> exact List.cons_ne_nil _ _

end Reference

/-! ## the references of a body -/

mutual

/-- The references in an expression, in the order of visits. -/
def Expression.references : Expression → List Reference
  | ⟨form, _, resolutions⟩ => form.references.mapIdx fun i r => r.within resolutions i

/-- The references in the parts of an expression. -/
def Form.references : Form → List Reference
  | .literal _ => []
  | .identifier (.callable name) => [.bare name]
  | .identifier (.localVariable _) => []
  | .tuple items => Expression.itemReferences items
  | .array items => Expression.itemReferences items
  | .sizedArray value size =>
    value.references.map (·.under .value) ++ size.references.map (·.under .value)
  | .range start stop =>
    start.references.map (·.under .value) ++ stop.references.map (·.under .value)
  | .steppedRange start step stop =>
    start.references.map (·.under .value) ++
      (step.references.map (·.under .value) ++ stop.references.map (·.under .value))
  | .item array index =>
    array.references.map (·.under .value) ++ index.references.map (·.under .value)
  | .field record _ => record.references.map (·.under .value)
  | .update source accessor value =>
    source.references.map (·.under .value) ++
      (accessor.references.map (·.under .value) ++ value.references.map (·.under .value))
  | .unary _ operand => operand.references.map (·.under .value)
  | .binary _ left right =>
    left.references.map (·.under .value) ++ right.references.map (·.under .value)
  | .conditional condition ifTrue ifFalse =>
    condition.references.map (·.under .value) ++
      (ifTrue.references.map (·.under .carried) ++ ifFalse.references.map (·.under .carried))
  | .unwrap operand => operand.references.map (·.under .carried)
  | .adjoint operand => operand.references.map (·.under .adjoint)
  | .controlled operand => operand.references.map (·.under .controlled)
  | .call callee argument =>
    callee.references.map (·.under .callee) ++ argument.references.map (·.under .value)

/-- The references in the items of a tuple or an array. -/
def Expression.itemReferences : List Expression → List Reference
  | [] => []
  | e :: es => e.references.map (·.under .value) ++ Expression.itemReferences es

end

mutual

/-- The references in a statement: those of its expressions and scopes. -/
def Statement.references : Statement → List Reference
  | .expression value => value.references
  | .returnValue value => value.references
  | .failWith value => value.references
  | .bind _ value _ => value.references
  | .assign _ value => value.references
  | .conditional branches => branches.references
  | .forLoop _ iterable body => iterable.references ++ Scope.references body
  | .whileLoop condition body => condition.references ++ Scope.references body
  | .repeatLoop body condition fixup =>
    Scope.references body ++ (condition.references ++ Scope.references fixup)
  | .conjugation outer inner => Scope.references outer ++ Scope.references inner
  | .qubitScope _ initializer body => initializer.references ++ Scope.references body

/-- The references in the branches of a conditional statement. -/
def Branches.references : Branches → List Reference
  | .done => []
  | .otherwise body => Scope.references body
  | .branch condition body rest =>
    condition.references ++ (Scope.references body ++ rest.references)

/-- The references in a scope. -/
def Scope.references : Scope → List Reference
  | [] => []
  | s :: rest => s.references ++ Scope.references rest

end

end CallGraphs
