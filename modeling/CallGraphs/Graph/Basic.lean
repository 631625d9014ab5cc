import CallGraphs.Graph.Node

/-!
# CallGraphs.Graph.Basic

The call graph: distinct nodes and distinct edges, each in the order of
first insertion.  Two nodes may be connected by several edges with
different substitutions.

* `mem_nodes_addNode`, `mem_nodes_addDependency` — the nodes after an insertion;
* `mem_edges_addDependency` — the edges after an insertion;
* `addDependency_fst` — an edge is reported as new exactly when it was absent.
-/

namespace CallGraphs

/-- A call graph. -/
structure CallGraph where
  nodes : List Node
  edges : List Edge
  nodes_nodup : nodes.Nodup
  edges_nodup : edges.Nodup
  ends_mem : ∀ e ∈ edges, e.caller ∈ nodes ∧ e.callee ∈ nodes
  deriving DecidableEq

namespace CallGraph

/-- The graph without nodes. -/
def empty : CallGraph := ⟨[], [], List.Pairwise.nil, List.Pairwise.nil, by simp⟩

instance : EmptyCollection CallGraph := ⟨empty⟩

instance : Inhabited CallGraph := ⟨∅⟩

@[simp] theorem nodes_empty : (∅ : CallGraph).nodes = [] := rfl

@[simp] theorem edges_empty : (∅ : CallGraph).edges = [] := rfl

/-- How many nodes there are. -/
def nodeCount (g : CallGraph) : Nat := g.nodes.length

/-- How many edges there are. -/
def edgeCount (g : CallGraph) : Nat := g.edges.length

/-- Whether a node is in the graph. -/
def contains (g : CallGraph) (n : Node) : Bool := g.nodes.contains n

/-- The position of a node in the order of insertion. -/
def position? (g : CallGraph) (n : Node) : Option Nat := g.nodes.idxOf? n

/-- A one-line summary. -/
def summary (g : CallGraph) : String :=
  "CallGraph \x7b nodes: " ++ toString g.nodeCount ++ ", edges: " ++ toString g.edgeCount ++
    " \x7d"

/-! ## insertion -/

/-- Add a node unless it is there. -/
def addNode (g : CallGraph) (n : Node) : CallGraph :=
  if h : n ∈ g.nodes then g
  else
    { nodes := g.nodes ++ [n]
      edges := g.edges
      nodes_nodup := by
        rw [List.nodup_append]
        refine ⟨g.nodes_nodup, by simp, fun a ha b hb => ?_⟩
        rw [List.mem_singleton] at hb
        exact fun e => h (hb ▸ e ▸ ha)
      edges_nodup := g.edges_nodup
      ends_mem := fun e he => by simp [g.ends_mem e he] }

@[simp] theorem mem_nodes_addNode {g : CallGraph} {n x : Node} :
    x ∈ (g.addNode n).nodes ↔ x ∈ g.nodes ∨ x = n := by
  unfold addNode
  split
  · rename_i h
    exact ⟨.inl, fun h' => h'.elim id fun e => e ▸ h⟩
  · simp

@[simp] theorem edges_addNode (g : CallGraph) (n : Node) : (g.addNode n).edges = g.edges := by
  unfold addNode
  split <;> rfl

theorem addNode_of_mem {g : CallGraph} {n : Node} (h : n ∈ g.nodes) : g.addNode n = g := by
  simp [addNode, h]

/-- Add an edge, and first its caller and its callee.  The answer tells
whether the edge was new. -/
def addDependency (g : CallGraph) (e : Edge) : Bool × CallGraph :=
  let g' := (g.addNode e.caller).addNode e.callee
  if h : e ∈ g'.edges then (false, g')
  else
    (true,
      { nodes := g'.nodes
        edges := g'.edges ++ [e]
        nodes_nodup := g'.nodes_nodup
        edges_nodup := by
          rw [List.nodup_append]
          refine ⟨g'.edges_nodup, by simp, fun a ha b hb => ?_⟩
          rw [List.mem_singleton] at hb
          exact fun e => h (hb ▸ e ▸ ha)
        ends_mem := fun d hd => by
          rcases List.mem_append.1 hd with hd | hd
          · exact g'.ends_mem d hd
          · rw [List.mem_singleton.1 hd]
            simp [g'] })

/-- An edge is reported as new exactly when it was absent. -/
theorem addDependency_fst (g : CallGraph) (e : Edge) :
    (g.addDependency e).1 = decide (e ∉ g.edges) := by
  unfold addDependency
  by_cases h : e ∈ g.edges <;> simp [h]

@[simp] theorem nodes_addDependency (g : CallGraph) (e : Edge) :
    (g.addDependency e).2.nodes = ((g.addNode e.caller).addNode e.callee).nodes := by
  unfold addDependency
  by_cases h : e ∈ g.edges <;> simp [h]

theorem edges_addDependency (g : CallGraph) (e : Edge) :
    (g.addDependency e).2.edges = if e ∈ g.edges then g.edges else g.edges ++ [e] := by
  unfold addDependency
  by_cases h : e ∈ g.edges <;> simp [h]

theorem mem_nodes_addDependency {g : CallGraph} {e : Edge} {x : Node} :
    x ∈ (g.addDependency e).2.nodes ↔ x ∈ g.nodes ∨ x = e.caller ∨ x = e.callee := by
  simp [or_assoc]

theorem mem_edges_addDependency {g : CallGraph} {e x : Edge} :
    x ∈ (g.addDependency e).2.edges ↔ x ∈ g.edges ∨ x = e := by
  rw [edges_addDependency]
  by_cases h : e ∈ g.edges
  · simp only [h, if_true]
    exact ⟨.inl, fun h' => h'.elim id fun he => he ▸ h⟩
  · simp [h]

/-! ## incident edges -/

/-- The edges that leave a node, the most recently added first. -/
def dependencies (g : CallGraph) (n : Node) : List Edge :=
  (g.edges.filter (·.caller = n)).reverse

/-- The edges that enter a node, the most recently added first. -/
def dependents (g : CallGraph) (n : Node) : List Edge :=
  (g.edges.filter (·.callee = n)).reverse

theorem mem_dependencies {g : CallGraph} {n : Node} {e : Edge} :
    e ∈ g.dependencies n ↔ e ∈ g.edges ∧ e.caller = n := by
  simp [dependencies]

theorem mem_dependents {g : CallGraph} {n : Node} {e : Edge} :
    e ∈ g.dependents n ↔ e ∈ g.edges ∧ e.callee = n := by
  simp [dependents]

end CallGraph

end CallGraphs
