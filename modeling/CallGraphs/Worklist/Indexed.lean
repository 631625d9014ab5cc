import CallGraphs.Graph.Indexed
import CallGraphs.Worklist

/-!
# CallGraphs.Worklist.Indexed

A worklist as it is kept in memory.  The pending nodes stand on a stack, one
hash set finds them there, and another one holds the nodes that came out.
Nothing in the type says that stack and sets are in step; that requests keep
them so is shown in `CallGraphs.Proofs.Requests`.
-/

namespace CallGraphs

/-- A stack of pending nodes with the set of them, and the set of the resolved
nodes. -/
structure IndexedWorklist where
  active : Bool
  stack : Array Node
  pending : Std.HashSet Node
  resolved : Std.HashSet Node

namespace IndexedWorklist

/-- A worklist that accepts nodes. -/
def demandDriven : IndexedWorklist := ⟨true, #[], ∅, ∅⟩

/-- A worklist that accepts nothing. -/
def inactive : IndexedWorklist := { demandDriven with active := false }

/-- How many nodes are pending. -/
def pendingCount (s : IndexedWorklist) : Nat := s.stack.size

/-- Offer a node.  The answer tells whether it was accepted. -/
def offer (s : IndexedWorklist) (n : Node) : Bool × IndexedWorklist :=
  if !s.active || s.resolved.contains n || s.pending.contains n then (false, s)
  else (true, { s with pending := s.pending.insert n, stack := s.stack.push n })

/-- Take the node on top of the stack and mark it as resolved. -/
def pop (s : IndexedWorklist) : Option (Node × IndexedWorklist) :=
  match s.stack.back? with
  | none => none
  | some n =>
    some (n, { s with
      stack := s.stack.pop
      pending := s.pending.erase n
      resolved := s.resolved.insert n })

end IndexedWorklist

end CallGraphs
