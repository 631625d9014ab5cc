import CallGraphs.Graph.Node

/-!
# CallGraphs.Worklist

The nodes still to be visited.  The most recently accepted node comes out
first.  A node is accepted while it is neither pending nor resolved, and it
is resolved as it comes out, so no node comes out twice.  An inactive
worklist accepts nothing.

* `offer_fst` — when a node is accepted;
* `pop_eq_none_iff` — when nothing comes out.
-/

namespace CallGraphs

/-- A worklist: the pending nodes, the next one first, and the resolved
ones. -/
structure Worklist where
  active : Bool
  pending : List Node
  resolved : List Node
  nodup : (pending ++ resolved).Nodup
  deriving DecidableEq

namespace Worklist

/-- A worklist that accepts nodes. -/
def demandDriven : Worklist := ⟨true, [], [], List.nodup_nil⟩

/-- A worklist that accepts nothing. -/
def inactive : Worklist := ⟨false, [], [], List.nodup_nil⟩

instance : Inhabited Worklist := ⟨inactive⟩

/-- How many nodes are pending. -/
def pendingCount (w : Worklist) : Nat := w.pending.length

/-- Offer a node.  The answer tells whether it was accepted. -/
def offer (w : Worklist) (n : Node) : Bool × Worklist :=
  if h : w.active = true ∧ n ∉ w.pending ++ w.resolved then
    (true,
      { active := w.active
        pending := n :: w.pending
        resolved := w.resolved
        nodup := List.nodup_cons.2 ⟨h.2, w.nodup⟩ })
  else (false, w)

/-- Take the next node out and mark it as resolved. -/
def pop (w : Worklist) : Option (Node × Worklist) :=
  match h : w.pending with
  | [] => none
  | n :: rest =>
    some (n,
      { active := w.active
        pending := rest
        resolved := n :: w.resolved
        nodup := by
          have := w.nodup
          rw [h] at this
          exact (List.perm_middle.nodup_iff).2 this })

/-- A node is accepted by an active worklist that has never accepted it. -/
theorem offer_fst (w : Worklist) (n : Node) :
    (w.offer n).1 = (w.active && decide (n ∉ w.pending ++ w.resolved)) := by
  unfold offer
  split <;> simp_all

/-- Nothing comes out exactly when nothing is pending. -/
theorem pop_eq_none_iff {w : Worklist} : w.pop = none ↔ w.pending = [] := by
  unfold pop
  split <;> simp_all

/-- What comes out is the next pending node. -/
theorem pop_eq_some {w w' : Worklist} {n : Node} (h : w.pop = some (n, w')) :
    w.pending = n :: w'.pending ∧ w'.resolved = n :: w.resolved ∧ w'.active = w.active := by
  unfold pop at h
  split at h
  · cases h
  · simp only [Option.some.injEq, Prod.mk.injEq] at h
    obtain ⟨rfl, rfl⟩ := h
    simp_all

end Worklist

end CallGraphs
