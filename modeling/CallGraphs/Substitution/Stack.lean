import CallGraphs.Substitution.Composition

/-!
# CallGraphs.Substitution.Stack

The substitutions of the expressions entered since the last reference to a
callable.  Leaving an expression cuts the stack back to its height at the
entry; a reference uses the stack up.

* `length_push`, `length_truncate` — the height after each operation;
* `truncate_push` — cutting back undoes an entry.
-/

namespace CallGraphs

/-- Substitutions waiting for a reference, the most recent first. -/
structure Substitution.Stack where
  maps : List Substitution
  deriving DecidableEq

namespace Substitution.Stack

/-- The stack that holds nothing. -/
def empty : Stack := ⟨[]⟩

instance : EmptyCollection Stack := ⟨empty⟩

instance : Inhabited Stack := ⟨∅⟩

/-- How many substitutions wait. -/
def length (stack : Stack) : Nat := stack.maps.length

/-- Whether none waits. -/
def isEmpty (stack : Stack) : Bool := stack.maps.isEmpty

/-- Enter an expression: its substitution is put on top unless it binds
nothing. -/
def push (stack : Stack) (map : Substitution) : Stack :=
  if map.isEmpty then stack else ⟨map :: stack.maps⟩

/-- Cut the stack back to the given height. -/
def truncate (stack : Stack) (height : Nat) : Stack :=
  ⟨stack.maps.drop (stack.maps.length - height)⟩

/-- What is handed to a combiner: the waiting substitutions, the most recent
first, then that of the caller. -/
def chain (stack : Stack) (caller : Substitution) : List Substitution :=
  stack.maps ++ [caller]

/-- Combine what waits with the caller's substitution.  The stack is used up
whether or not that succeeds. -/
def consume (stack : Stack) (caller : Substitution) (combiner : Combiner) :
    Except BuildError Substitution × Stack :=
  (combiner (stack.chain caller), ∅)

@[simp] theorem length_empty : (∅ : Stack).length = 0 := rfl

theorem length_push (stack : Stack) (map : Substitution) :
    (stack.push map).length = if map.isEmpty then stack.length else stack.length + 1 := by
  unfold push
  split <;> simp [length]

@[simp] theorem length_truncate (stack : Stack) (height : Nat) :
    (stack.truncate height).length = min height stack.length := by
  simp only [truncate, length, List.length_drop]
  omega

/-- Cutting back to the height at an entry undoes the entry. -/
@[simp] theorem truncate_push (stack : Stack) (map : Substitution) :
    (stack.push map).truncate stack.length = stack := by
  unfold push
  split
  · simp [truncate, length]
  · simp [truncate, length]

/-- Cutting back to at least the present height does nothing. -/
theorem truncate_of_length_le {stack : Stack} {height : Nat} (h : stack.length ≤ height) :
    stack.truncate height = stack := by
  simp only [length] at h
  simp [truncate, Nat.sub_eq_zero_of_le h]

end Substitution.Stack

end CallGraphs
