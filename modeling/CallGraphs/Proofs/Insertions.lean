import CallGraphs.Graph.Indexed
import Mathlib.Data.List.Induction

/-!
# CallGraphs.Proofs.Insertions

Call graphs as what sequences of insertions leave.  A graph holds what was put
into it, each node and each edge once and in the order in which they first came
in, and its nodes keep their positions.

* `nodes_ofInsertions`, `edges_ofInsertions` — the nodes and the edges;
* `exists_ofInsertions` — every graph is left by some sequence;
* `position?_eq_some_iff`, `position?_of_prefix` — the positions of nodes;
* `listsLatestFirst_dependencies`, `listsLatestFirst_dependents` — the edges at a node.
-/

namespace CallGraphs

/-! ## lists without repetition -/

/-- Of the occurrences of an element the first one is kept. -/
theorem eraseDups_concat {α : Type} [DecidableEq α] (xs : List α) (x : α) :
    (xs ++ [x]).eraseDups = if x ∈ xs then xs.eraseDups else xs.eraseDups ++ [x] := by
  rw [List.eraseDups_append]
  by_cases hx : x ∈ xs <;> simp [List.removeAll, List.eraseDups_cons, hx]

/-- Without repetition all of them are. -/
theorem eraseDups_of_nodup {α : Type} [DecidableEq α] {xs : List α} (h : xs.Nodup) :
    xs.eraseDups = xs := by
  induction xs using List.reverseRecOn with
  | nil => rfl
  | append_singleton xs x ih =>
      rw [List.nodup_append] at h
      obtain ⟨hxs, -, hdisjoint⟩ := h
      have hx : x ∉ xs := fun hx => hdisjoint x hx x (List.mem_singleton_self x) rfl
      rw [eraseDups_concat, if_neg hx, ih hxs]

/-- What occurred before is left out. -/
theorem eraseDups_append_of_subset {α : Type} [DecidableEq α] {xs ys : List α}
    (h : ∀ y ∈ ys, y ∈ xs) : (xs ++ ys).eraseDups = xs.eraseDups := by
  have hnone : ys.removeAll xs = [] := by
    rw [List.removeAll, List.filter_eq_nil_iff]
    simpa using h
  rw [List.eraseDups_append, hnone]
  exact List.append_nil _

/-! ## insertions -/

/-- What can be put into a call graph. -/
inductive Insertion where
  | node (n : Node)
  | dependency (e : Edge)
  deriving DecidableEq

namespace Insertion

/-- The nodes that are put in: the caller of an edge, then its callee. -/
def nodes : Insertion → List Node
  | .node n => [n]
  | .dependency e => [e.caller, e.callee]

/-- The edges that are put in. -/
def edges : Insertion → List Edge
  | .node _ => []
  | .dependency e => [e]

theorem mem_flatMap_edges {is : List Insertion} {e : Edge} :
    e ∈ is.flatMap edges ↔ .dependency e ∈ is := by
  rw [List.mem_flatMap]
  constructor
  · rintro ⟨i, hi, he⟩
    cases i with
    | node n => simp [edges] at he
    | dependency d =>
        rw [List.mem_singleton.1 he]
        exact hi
  · exact fun h => ⟨_, h, List.mem_singleton_self e⟩

end Insertion

namespace CallGraph

variable {g : CallGraph} {n : Node} {e : Edge} {i : Nat} {is : List Insertion}

/-- A graph after an insertion. -/
def insert (g : CallGraph) : Insertion → CallGraph
  | .node n => g.addNode n
  | .dependency e => (g.addDependency e).2

/-- The graph that a sequence of insertions leaves. -/
def ofInsertions (is : List Insertion) : CallGraph := is.foldl insert ∅

/-- A graph is its nodes and its edges. -/
theorem ext_nodes_edges {g' : CallGraph} (hnodes : g'.nodes = g.nodes)
    (hedges : g'.edges = g.edges) : g' = g := by
  cases g
  cases g'
  simp only at hnodes hedges
  simp only [hnodes, hedges]

theorem ofInsertions_concat (is : List Insertion) (i : Insertion) :
    ofInsertions (is ++ [i]) = (ofInsertions is).insert i := by
  rw [ofInsertions, List.foldl_append]
  rfl

/-! ## nodes -/

theorem nodes_addNode (g : CallGraph) (n : Node) :
    (g.addNode n).nodes = if n ∈ g.nodes then g.nodes else g.nodes ++ [n] := by
  unfold addNode
  split <;> rfl

theorem nodes_addNode_eraseDups {ns : List Node} (h : g.nodes = ns.eraseDups) (n : Node) :
    (g.addNode n).nodes = (ns ++ [n]).eraseDups := by
  rw [nodes_addNode, eraseDups_concat, h]
  simp only [List.mem_eraseDups]

/-- The nodes are those that were put in, in the order in which they first
were. -/
theorem nodes_ofInsertions (is : List Insertion) :
    (ofInsertions is).nodes = (is.flatMap Insertion.nodes).eraseDups := by
  induction is using List.reverseRecOn with
  | nil => rfl
  | append_singleton is i ih =>
      rw [ofInsertions_concat, List.flatMap_append, List.flatMap_singleton]
      cases i with
      | node n => exact nodes_addNode_eraseDups ih n
      | dependency e =>
          rw [insert, nodes_addDependency]
          have hcaller := nodes_addNode_eraseDups ih e.caller
          have hcallee := nodes_addNode_eraseDups hcaller e.callee
          rwa [List.append_assoc] at hcallee

/-! ## edges -/

/-- The edges are those that were put in, in the order in which they first
were. -/
theorem edges_ofInsertions (is : List Insertion) :
    (ofInsertions is).edges = (is.flatMap Insertion.edges).eraseDups := by
  induction is using List.reverseRecOn with
  | nil => rfl
  | append_singleton is i ih =>
      rw [ofInsertions_concat, List.flatMap_append, List.flatMap_singleton]
      cases i with
      | node n =>
          rw [insert, edges_addNode, ih, Insertion.edges, List.append_nil]
      | dependency e =>
          rw [insert, edges_addDependency, Insertion.edges, eraseDups_concat, ih]
          simp only [List.mem_eraseDups]

/-- An edge is stored exactly if it was put in. -/
theorem mem_edges_ofInsertions : e ∈ (ofInsertions is).edges ↔ .dependency e ∈ is := by
  rw [edges_ofInsertions, List.mem_eraseDups, Insertion.mem_flatMap_edges]

/-- Every graph is what insertions leave: of its nodes, and then of its edges. -/
theorem exists_ofInsertions (g : CallGraph) : ∃ is, ofInsertions is = g := by
  let is := g.nodes.map Insertion.node ++ g.edges.map Insertion.dependency
  have hnodes : is.flatMap Insertion.nodes =
      g.nodes ++ g.edges.flatMap fun e => [e.caller, e.callee] := by
    simp [is, List.flatMap_append, List.flatMap_map, Insertion.nodes]
  have hedges : is.flatMap Insertion.edges = g.edges := by
    simp [is, List.flatMap_append, List.flatMap_map, Insertion.edges]
  have hends : ∀ n ∈ g.edges.flatMap (fun e => [e.caller, e.callee]), n ∈ g.nodes := by
    intro n hn
    obtain ⟨e, he, hn⟩ := List.mem_flatMap.1 hn
    obtain ⟨hcaller, hcallee⟩ := g.ends_mem e he
    simp only [List.mem_cons, List.not_mem_nil, or_false] at hn
    obtain rfl | rfl := hn
    · exact hcaller
    · exact hcallee
  refine ⟨is, ext_nodes_edges ?_ ?_⟩
  · rw [nodes_ofInsertions, hnodes, eraseDups_append_of_subset hends,
      eraseDups_of_nodup g.nodes_nodup]
  · rw [edges_ofInsertions, hedges, eraseDups_of_nodup g.edges_nodup]

/-! ## positions -/

/-- The position of a node is where it stands. -/
theorem position?_eq_some_iff : g.position? n = some i ↔ g.nodes[i]? = some n := by
  rw [position?, List.idxOf?_eq_some_iff, List.getElem?_eq_some_iff]
  refine exists_congr fun hi => and_iff_left_of_imp fun hn j hj hj' => ?_
  have heq : j = i := (g.nodes_nodup.getElem_inj_iff).1 (hj'.trans hn.symm)
  exact absurd hj (heq ▸ Nat.lt_irrefl i)

/-- It stays there while the graph grows. -/
theorem position?_of_prefix {g' : CallGraph} (h : g.nodes <+: g'.nodes)
    (hn : g.position? n = some i) : g'.position? n = some i := by
  rw [position?_eq_some_iff, List.getElem?_eq_some_iff] at hn ⊢
  obtain ⟨hi, hn⟩ := hn
  exact ⟨Nat.lt_of_lt_of_le hi h.length_le, (h.getElem hi).symm.trans hn⟩

theorem prefix_addNode (g : CallGraph) (n : Node) : g.nodes <+: (g.addNode n).nodes := by
  unfold addNode
  split
  · exact List.prefix_rfl
  · exact List.prefix_append _ _

theorem prefix_addDependency (g : CallGraph) (e : Edge) :
    g.nodes <+: (g.addDependency e).2.nodes := by
  rw [nodes_addDependency]
  exact (g.prefix_addNode e.caller).trans ((g.addNode e.caller).prefix_addNode e.callee)

/-- More insertions let it grow. -/
theorem prefix_ofInsertions (is later : List Insertion) :
    (ofInsertions is).nodes <+: (ofInsertions (is ++ later)).nodes := by
  induction later using List.reverseRecOn with
  | nil => simp
  | append_singleton later i ih =>
      rw [← List.append_assoc, ofInsertions_concat]
      refine ih.trans ?_
      cases i with
      | node n => exact prefix_addNode _ n
      | dependency e => exact prefix_addDependency _ e

/-! ## incident edges -/

/-- A list holds the edges of a graph with a property, each of them once and
the most recently added first. -/
def ListsLatestFirst (g : CallGraph) (es : List Edge) (P : Edge → Prop) : Prop :=
  es.Nodup ∧ es.reverse.Sublist g.edges ∧ ∀ e, e ∈ es ↔ e ∈ g.edges ∧ P e

theorem listsLatestFirst_filter (g : CallGraph) (P : Edge → Prop) [DecidablePred P] :
    g.ListsLatestFirst (g.edges.filter (P ·)).reverse P := by
  refine ⟨List.nodup_reverse.2 (g.edges_nodup.filter _), ?_, fun e => by simp⟩
  rw [List.reverse_reverse]
  exact List.filter_sublist

theorem listsLatestFirst_dependencies (g : CallGraph) (n : Node) :
    g.ListsLatestFirst (g.dependencies n) (·.caller = n) :=
  g.listsLatestFirst_filter (·.caller = n)

theorem listsLatestFirst_dependents (g : CallGraph) (n : Node) :
    g.ListsLatestFirst (g.dependents n) (·.callee = n) :=
  g.listsLatestFirst_filter (·.callee = n)

/-- No edge is listed at a node that is not in the graph. -/
theorem incident_of_not_mem (h : n ∉ g.nodes) : g.dependencies n = [] ∧ g.dependents n = [] := by
  constructor
  · refine List.eq_nil_iff_forall_not_mem.2 fun e he => h ?_
    obtain ⟨hstored, rfl⟩ := mem_dependencies.1 he
    exact (g.ends_mem e hstored).1
  · refine List.eq_nil_iff_forall_not_mem.2 fun e he => h ?_
    obtain ⟨hstored, rfl⟩ := mem_dependents.1 he
    exact (g.ends_mem e hstored).2

end CallGraph

end CallGraphs
