import CallGraphs.Graph.Basic

/-!
# CallGraphs.Graph.Search

Transitive queries, answered in breadth-first order.  The search goes level
by level: the next level holds the neighbours of the present one that were
not seen before, in the order in which they are met, where the neighbours
along more recent edges are met first.  The start itself is seen only when
the search comes back to it.

* `length_discover` — a level takes from the unseen nodes what it finds;
* `mem_discover` — and finds exactly the unseen candidates.
-/

namespace CallGraphs

namespace CallGraph

/-- Take from `unseen` the candidates in it: those found, each once and in
the order of the candidates, and those still unseen. -/
def discover (unseen : List Node) : List Node → List Node × List Node
  | [] => ([], unseen)
  | n :: candidates =>
    if n ∈ unseen then
      let (found, rest) := discover (unseen.erase n) candidates
      (n :: found, rest)
    else discover unseen candidates

theorem length_discover (unseen candidates : List Node) :
    (discover unseen candidates).1.length + (discover unseen candidates).2.length =
      unseen.length := by
  induction candidates generalizing unseen with
  | nil => simp [discover]
  | cons n ns ih =>
      rw [discover]
      split
      · rename_i h
        have := ih (unseen.erase n)
        have := List.length_erase_of_mem h
        have := List.length_pos_of_mem h
        simp only [List.length_cons]
        omega
      · exact ih unseen

theorem mem_discover {unseen candidates : List Node} {x : Node} :
    x ∈ (discover unseen candidates).1 ↔ x ∈ candidates ∧ x ∈ unseen := by
  induction candidates generalizing unseen with
  | nil => simp [discover]
  | cons n ns ih =>
      rw [discover]
      split
      · rename_i h
        by_cases hx : x = n
        · simp [hx, h]
        · simp [ih, hx, List.mem_erase_of_ne hx]
      · rename_i h
        rw [ih]
        constructor
        · exact fun ⟨h₁, h₂⟩ => ⟨List.mem_cons_of_mem n h₁, h₂⟩
        · rintro ⟨h₁, h₂⟩
          rcases List.mem_cons.1 h₁ with rfl | h₁
          · exact absurd h₂ h
          · exact ⟨h₁, h₂⟩

/-- The neighbours of a level, in the order in which they are met. -/
def ahead (next : Node → List Node) (level : List Node) : List Node := level.flatMap next

/-- The levels that follow a level. -/
def levels (next : Node → List Node) (unseen level : List Node) : List (List Node) :=
  match _h : discover unseen (ahead next level) with
  | ([], _) => []
  | (n :: found, rest) => (n :: found) :: levels next rest (n :: found)
termination_by unseen.length
decreasing_by
  have := length_discover unseen (ahead next level)
  rw [_h] at this
  simp only [List.length_cons] at this
  omega

/-- The callees of a node, along the most recent edge first. -/
def callees (g : CallGraph) (n : Node) : List Node := (g.dependencies n).map (·.callee)

/-- The callers of a node, along the most recent edge first. -/
def callers (g : CallGraph) (n : Node) : List Node := (g.dependents n).map (·.caller)

/-- Every node reached from `n` by one or more edges, in breadth-first
order. -/
def allDependencies (g : CallGraph) (n : Node) : List Node :=
  (levels g.callees g.nodes [n]).flatten

/-- Every node from which `n` is reached by one or more edges, in
breadth-first order. -/
def allDependents (g : CallGraph) (n : Node) : List Node :=
  (levels g.callers g.nodes [n]).flatten

theorem mem_callees {g : CallGraph} {n x : Node} :
    x ∈ g.callees n ↔ ∃ e ∈ g.edges, e.caller = n ∧ e.callee = x := by
  simp only [callees, List.mem_map, mem_dependencies, and_assoc]

theorem mem_callers {g : CallGraph} {n x : Node} :
    x ∈ g.callers n ↔ ∃ e ∈ g.edges, e.callee = n ∧ e.caller = x := by
  simp only [callers, List.mem_map, mem_dependents, and_assoc]

end CallGraph

end CallGraphs
