import CallGraphs.Proofs.Insertions

/-!
# CallGraphs.Proofs.Indexing

A graph kept in memory against the graph that it keeps.  Index, numbered nodes
and links stay in step through every insertion, so what they answer is what the
graph answers.

* `Keeps.addNode`, `Keeps.addDependency` — one insertion;
* `keeps_ofInsertions` — sequences of insertions;
* `Keeps.edges`, `Keeps.incident` — queries;
* `insertions_stored` — what a graph holds after any sequence of insertions.
-/

namespace CallGraphs

/-! ## numbers -/

namespace CallGraph

variable {g : CallGraph} {n m : Node}

theorem position?_of_mem (h : n ∈ g.nodes) : g.position? n = some (g.nodes.idxOf n) :=
  position?_eq_some_iff.2 (List.getElem?_idxOf h)

theorem position?_of_not_mem (h : n ∉ g.nodes) : g.position? n = none :=
  List.idxOf?_eq_none_iff.2 h

/-- A new node gets the next position, the others keep theirs. -/
theorem position?_addNode (h : n ∉ g.nodes) (m : Node) :
    (g.addNode n).position? m = if m = n then some g.nodes.length else g.position? m := by
  have hnodes : (g.addNode n).nodes = g.nodes ++ [n] := by rw [nodes_addNode, if_neg h]
  by_cases hm : m = n
  · subst hm
    rw [if_pos rfl, position?_eq_some_iff, hnodes, List.getElem?_concat_length]
  · rw [if_neg hm]
    by_cases hmem : m ∈ g.nodes
    · rw [position?_of_mem hmem]
      exact position?_of_prefix (g.prefix_addNode n) (position?_of_mem hmem)
    · rw [position?_of_not_mem hmem, position?_of_not_mem]
      simp [hmem, hm]

end CallGraph

/-- The link of an edge between nodes that stand in a list. -/
def Edge.link (nodes : List Node) (e : Edge) : Link :=
  ⟨nodes.idxOf e.caller, nodes.idxOf e.callee, e.resolutions⟩

/-- Links to nodes in a list are not changed by nodes that come after. -/
theorem Edge.link_append {nodes : List Node} {e : Edge} (hcaller : e.caller ∈ nodes)
    (hcallee : e.callee ∈ nodes) (more : List Node) : e.link (nodes ++ more) = e.link nodes := by
  rw [link, link, List.idxOf_append_of_mem hcaller, List.idxOf_append_of_mem hcallee]

/-- The link of an edge tells its ends and its substitution. -/
theorem Edge.link_inj {nodes : List Node} {d e : Edge} (hcaller : d.caller ∈ nodes)
    (hcallee : d.callee ∈ nodes) : d.link nodes = e.link nodes ↔ d = e := by
  simp only [link, Link.mk.injEq, List.idxOf_inj hcaller, List.idxOf_inj hcallee]
  cases d
  cases e
  simp

namespace IndexedGraph

variable {s : IndexedGraph} {g : CallGraph} {n : Node} {e : Edge}

/-! ## keeping a graph in step -/

/-- Index, nodes and links are in step if they keep one graph: the index holds
the positions of its nodes, and the links are those of its edges. -/
structure Keeps (s : IndexedGraph) (g : CallGraph) : Prop where
  index : ∀ n, s.number? n = g.position? n
  nodes : s.nodes = g.nodes
  links : s.links = g.edges.map (Edge.link g.nodes)

theorem keeps_empty : empty.Keeps ∅ where
  index _ := Std.HashMap.getElem?_empty
  nodes := rfl
  links := rfl

/-- Adding a node keeps them in step, and the answer is the position of the
node. -/
theorem Keeps.addNode (h : s.Keeps g) (n : Node) :
    (s.addNode n).2.Keeps (g.addNode n) ∧ (s.addNode n).1 = (g.addNode n).nodes.idxOf n := by
  unfold IndexedGraph.addNode
  by_cases hn : n ∈ g.nodes
  · rw [h.index n, CallGraph.position?_of_mem hn, CallGraph.addNode_of_mem hn]
    exact ⟨h, rfl⟩
  · have hnodes : (g.addNode n).nodes = g.nodes ++ [n] := by
      rw [CallGraph.nodes_addNode, if_neg hn]
    rw [h.index n, CallGraph.position?_of_not_mem hn]
    refine ⟨⟨fun m => ?_, ?_, ?_⟩, ?_⟩
    · rw [CallGraph.position?_addNode hn, ← h.index m, number?, number?,
        Std.HashMap.getElem?_insert, h.nodes]
      exact if_congr (by rw [beq_iff_eq, eq_comm]) rfl rfl
    · rw [hnodes, ← h.nodes]
    · rw [hnodes, CallGraph.edges_addNode, h.links]
      refine List.map_congr_left fun e he => ?_
      obtain ⟨hcaller, hcallee⟩ := g.ends_mem e he
      exact (Edge.link_append hcaller hcallee [n]).symm
    · rw [hnodes, List.idxOf_append_of_notMem hn, h.nodes]
      simp

/-- The link of an edge between nodes of the graph is there exactly if the edge
is. -/
theorem Keeps.mem_links_iff (h : s.Keeps g) (hcaller : e.caller ∈ g.nodes)
    (hcallee : e.callee ∈ g.nodes) : e.link g.nodes ∈ s.links ↔ e ∈ g.edges := by
  rw [h.links, List.mem_map]
  constructor
  · rintro ⟨d, hd, hlink⟩
    rwa [(Edge.link_inj hcaller hcallee).1 hlink.symm]
  · exact fun he => ⟨e, he, rfl⟩

/-- The link that is made for an edge is its link in the graph with its ends. -/
theorem Keeps.fst_addNode_addNode (h : s.Keeps g) (e : Edge) :
    (⟨(s.addNode e.caller).1, ((s.addNode e.caller).2.addNode e.callee).1, e.resolutions⟩ : Link) =
      e.link ((g.addNode e.caller).addNode e.callee).nodes := by
  obtain ⟨hfirst, hsource⟩ := h.addNode e.caller
  obtain ⟨-, htarget⟩ := hfirst.addNode e.callee
  have hcaller : e.caller ∈ (g.addNode e.caller).nodes := by simp
  obtain ⟨more, hmore⟩ := (g.addNode e.caller).prefix_addNode e.callee
  rw [Edge.link, hsource, htarget, ← hmore, List.idxOf_append_of_mem hcaller]

/-- Links may be replaced by those of a graph with the same nodes. -/
theorem Keeps.relink (h : s.Keeps g) {g' : CallGraph} (hnodes : g'.nodes = g.nodes)
    {links : List Link} (hlinks : links = g'.edges.map (Edge.link g'.nodes)) :
    ({ s with links := links } : IndexedGraph).Keeps g' where
  index n := by
    rw [CallGraph.position?, hnodes]
    exact h.index n
  nodes := h.nodes.trans hnodes.symm
  links := hlinks

/-- Adding an edge keeps them in step, and tells what the graph tells. -/
theorem Keeps.addDependency (h : s.Keeps g) (e : Edge) :
    (s.addDependency e).2.Keeps (g.addDependency e).2 ∧
      (s.addDependency e).1 = (g.addDependency e).1 := by
  have hends := ((h.addNode e.caller).1.addNode e.callee).1
  have hsame : ((g.addNode e.caller).addNode e.callee).edges = g.edges := by
    rw [CallGraph.edges_addNode, CallGraph.edges_addNode]
  have hmem := hends.mem_links_iff (e := e) (by simp) (by simp)
  have hnodes := g.nodes_addDependency e
  have hedges := g.edges_addDependency e
  rw [hsame] at hmem
  rw [CallGraph.addDependency_fst, IndexedGraph.addDependency]
  dsimp only
  rw [h.fst_addNode_addNode]
  by_cases he : e ∈ g.edges
  · rw [if_pos (hmem.2 he)]
    rw [if_pos he] at hedges
    refine ⟨hends.relink hnodes ?_, by simp [he]⟩
    rw [hnodes, hedges, hends.links, hsame]
  · rw [if_neg fun h => he (hmem.1 h)]
    rw [if_neg he] at hedges
    refine ⟨hends.relink hnodes ?_, by simp [he]⟩
    rw [hnodes, hedges, hends.links, hsame, List.map_append, List.map_singleton]

/-! ## sequences of insertions -/

/-- A graph after an insertion. -/
def insert (s : IndexedGraph) : Insertion → IndexedGraph
  | .node n => (s.addNode n).2
  | .dependency e => (s.addDependency e).2

/-- The graph that a sequence of insertions leaves. -/
def ofInsertions (is : List Insertion) : IndexedGraph := is.foldl insert empty

theorem Keeps.insert (h : s.Keeps g) (i : Insertion) : (s.insert i).Keeps (g.insert i) := by
  cases i with
  | node n => exact (h.addNode n).1
  | dependency e => exact (h.addDependency e).1

/-- Every sequence of insertions keeps index, nodes and links in step. -/
theorem keeps_ofInsertions (is : List Insertion) :
    (ofInsertions is).Keeps (CallGraph.ofInsertions is) := by
  have hfold (s : IndexedGraph) (g : CallGraph) (h : s.Keeps g) :
      (is.foldl IndexedGraph.insert s).Keeps (is.foldl CallGraph.insert g) := by
    induction is generalizing s g with
    | nil => exact h
    | cons i is ih => exact ih _ _ (h.insert i)
  exact hfold empty ∅ keeps_empty

/-! ## queries -/

/-- A link is read as the edge that it was made for. -/
theorem Keeps.edge?_link (h : s.Keeps g) (he : e ∈ g.edges) : s.edge? (e.link g.nodes) = some e := by
  obtain ⟨hcaller, hcallee⟩ := g.ends_mem e he
  rw [edge?, h.nodes, Edge.link, List.getElem?_idxOf hcaller, List.getElem?_idxOf hcallee]

/-- So are several links. -/
theorem Keeps.filterMap_edge? (h : s.Keeps g) {es : List Edge} (hes : ∀ e ∈ es, e ∈ g.edges) :
    (es.map (Edge.link g.nodes)).filterMap s.edge? = es := by
  rw [List.filterMap_map]
  calc es.filterMap (s.edge? ∘ Edge.link g.nodes) = es.filterMap some :=
        List.filterMap_congr fun e he => h.edge?_link (hes e he)
    _ = es := List.filterMap_some

/-- All edges are listed as in the graph. -/
theorem Keeps.edges (h : s.Keeps g) : s.edges = g.edges := by
  rw [IndexedGraph.edges, h.links, h.filterMap_edge? fun e he => he]

/-- The links at a node are those of its edges, where `side` is the number of the
end that is looked at. -/
theorem Keeps.filter_links (h : s.Keeps g) {side : Link → Nat} {end' : Edge → Node}
    (hside : ∀ e ∈ g.edges, side (e.link g.nodes) = g.nodes.idxOf (end' e))
    (hend : ∀ e ∈ g.edges, end' e ∈ g.nodes) (n : Node) :
    (s.links.filter (side · = g.nodes.idxOf n)) =
      (g.edges.filter (end' · = n)).map (Edge.link g.nodes) := by
  rw [h.links, List.filter_map]
  refine congrArg _ (List.filter_congr fun e he => ?_)
  rw [Function.comp_apply, hside e he, decide_eq_decide, List.idxOf_inj (hend e he)]

/-- So the edges at a node are listed as in the graph. -/
theorem Keeps.incident (h : s.Keeps g) {side : Link → Nat} {end' : Edge → Node}
    (hside : ∀ e ∈ g.edges, side (e.link g.nodes) = g.nodes.idxOf (end' e))
    (hend : ∀ e ∈ g.edges, end' e ∈ g.nodes) (n : Node) :
    s.incident side n = (g.edges.filter (end' · = n)).reverse := by
  unfold IndexedGraph.incident
  by_cases hn : n ∈ g.nodes
  · rw [h.index n, CallGraph.position?_of_mem hn]
    dsimp only
    rw [h.filter_links hside hend, ← List.map_reverse, h.filterMap_edge?]
    exact fun e he => (List.mem_filter.1 (List.mem_reverse.1 he)).1
  · have hnone : g.edges.filter (end' · = n) = [] := by
      refine List.filter_eq_nil_iff.2 fun e he => ?_
      rw [decide_eq_true_iff]
      exact fun heq => hn (heq ▸ hend e he)
    rw [h.index n, CallGraph.position?_of_not_mem hn, hnone, List.reverse_nil]

theorem Keeps.dependencies (h : s.Keeps g) (n : Node) : s.dependencies n = g.dependencies n :=
  h.incident (fun _ _ => rfl) (fun e he => (g.ends_mem e he).1) n

theorem Keeps.dependents (h : s.Keeps g) (n : Node) : s.dependents n = g.dependents n :=
  h.incident (fun _ _ => rfl) (fun e he => (g.ends_mem e he).2) n

end IndexedGraph

/-! ## what a graph holds -/

/-- A call graph is a faithful set of nodes and edges.  After any sequence of
insertions its nodes are those that were put in, the caller of an edge before
its callee, each once and in the order in which they first came in.  A node is
found at its place, and stays there whatever is put in later.  Its edges are
those that were put in, each once and in the order in which they first came
in, and an edge is reported as new exactly if it was not put in before.  Each
node lists the edges that leave it and those that enter it, the latest first.
In memory the same sequence leaves an index, nodes and links that are in step
and answer the same. -/
theorem insertions_stored (is : List Insertion) :
    let g := CallGraph.ofInsertions is
    let s := IndexedGraph.ofInsertions is
    (g.nodes.Nodup ∧ g.nodes = (is.flatMap Insertion.nodes).eraseDups) ∧
    (∀ n i, g.position? n = some i ↔ g.nodes[i]? = some n) ∧
    (∀ later n i, g.position? n = some i →
      (CallGraph.ofInsertions (is ++ later)).position? n = some i) ∧
    (g.edges.Nodup ∧ g.edges = (is.flatMap Insertion.edges).eraseDups) ∧
    (∀ e, (e ∈ g.edges ↔ .dependency e ∈ is) ∧
      ((g.addDependency e).1 = true ↔ .dependency e ∉ is)) ∧
    (∀ n, g.ListsLatestFirst (g.dependencies n) (·.caller = n) ∧
      g.ListsLatestFirst (g.dependents n) (·.callee = n) ∧
      (n ∉ g.nodes → g.dependencies n = [] ∧ g.dependents n = [])) ∧
    s.nodes = g.nodes ∧ s.edges = g.edges ∧
    (∀ n, s.number? n = g.position? n ∧
      (g.addNode n).position? n = some (s.addNode n).1 ∧
      s.dependencies n = g.dependencies n ∧ s.dependents n = g.dependents n) ∧
    ∀ e, (s.addDependency e).1 = (g.addDependency e).1 := by
  intro g s
  have hkeeps : s.Keeps g := IndexedGraph.keeps_ofInsertions is
  refine ⟨⟨g.nodes_nodup, CallGraph.nodes_ofInsertions is⟩, fun n i => CallGraph.position?_eq_some_iff,
    fun later n i hn => ?_, ⟨g.edges_nodup, CallGraph.edges_ofInsertions is⟩, fun e => ?_,
    fun n => ?_, hkeeps.nodes, hkeeps.edges, fun n => ?_, fun e => (hkeeps.addDependency e).2⟩
  · exact CallGraph.position?_of_prefix (CallGraph.prefix_ofInsertions is later) hn
  · have hmem : e ∈ g.edges ↔ .dependency e ∈ is := CallGraph.mem_edges_ofInsertions
    refine ⟨hmem, ?_⟩
    rw [CallGraph.addDependency_fst, decide_eq_true_iff, hmem]
  · exact ⟨g.listsLatestFirst_dependencies n, g.listsLatestFirst_dependents n,
      CallGraph.incident_of_not_mem⟩
  · refine ⟨hkeeps.index n, ?_, hkeeps.dependencies n, hkeeps.dependents n⟩
    rw [(hkeeps.addNode n).2, CallGraph.position?_of_mem (by simp)]

example :
    let a : Node := .entry ⟨"Test", "A"⟩
    let b : Node := .entry ⟨"Test", "B"⟩
    let self : Edge := ⟨a, a, ∅⟩
    let call : Edge := ⟨a, b, ∅⟩
    let other : Edge := ⟨a, b, .ofList [(⟨⟨"Test", "B"⟩, "T"⟩, .primitive .int)]⟩
    let g : CallGraph := .ofInsertions
      [.dependency call, .dependency self, .node b, .dependency other, .dependency call]
    g.nodes = [a, b] ∧ g.edges = [call, self, other] ∧
      g.dependencies a = [other, self, call] ∧ g.dependents b = [other, call] := by
  decide +kernel

end CallGraphs
