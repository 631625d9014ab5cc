import CallGraphs.Graph.Basic
import Mathlib.Data.List.Nodup
import Mathlib.Logic.Function.Iterate

/-!
# CallGraphs.Graph.Indexed

A call graph as it is kept in memory.  Nodes are numbered in the order in
which they come in, edges are links between numbers, and a hash index finds
the number of a node.  Transitive queries run along the numbers with a queue.
Nothing in the type says that index, nodes and links are in step; that
insertions keep them so is shown in `CallGraphs.Proofs.Indexing`.
-/

namespace CallGraphs

instance : Hashable Node := ⟨fun n => hash n.text⟩

/-- A link from one numbered node to another. -/
structure Link where
  source : Nat
  target : Nat
  resolutions : Substitution
  deriving DecidableEq

/-- Numbered nodes with an index of their numbers, and the links between
them. -/
structure IndexedGraph where
  index : Std.HashMap Node Nat
  nodes : List Node
  links : List Link

namespace IndexedGraph

/-- The graph without nodes. -/
def empty : IndexedGraph := ⟨∅, [], []⟩

/-- The number of a node. -/
def number? (s : IndexedGraph) (n : Node) : Option Nat := s.index[n]?

/-- Number a node unless it has a number.  The answer is its number. -/
def addNode (s : IndexedGraph) (n : Node) : Nat × IndexedGraph :=
  match s.number? n with
  | some number => (number, s)
  | none =>
    (s.nodes.length,
      { s with index := s.index.insert n s.nodes.length, nodes := s.nodes ++ [n] })

/-- Link the ends of an edge, and first number its caller and its callee.  The
answer tells whether there was no such link. -/
def addDependency (s : IndexedGraph) (e : Edge) : Bool × IndexedGraph :=
  let (source, s) := s.addNode e.caller
  let (target, s) := s.addNode e.callee
  let link : Link := ⟨source, target, e.resolutions⟩
  if link ∈ s.links then (false, s) else (true, { s with links := s.links ++ [link] })

/-- The edge that a link stands for. -/
def edge? (s : IndexedGraph) (l : Link) : Option Edge :=
  match s.nodes[l.source]?, s.nodes[l.target]? with
  | some caller, some callee => some ⟨caller, callee, l.resolutions⟩
  | _, _ => none

/-- All edges, in the order of their links. -/
def edges (s : IndexedGraph) : List Edge := s.links.filterMap s.edge?

/-- The edges with a node at one of their ends, the most recently added first;
none if the node has no number. -/
def incident (s : IndexedGraph) (side : Link → Nat) (n : Node) : List Edge :=
  match s.number? n with
  | none => []
  | some number => (s.links.filter (side · = number)).reverse.filterMap s.edge?

/-- The edges that leave a node. -/
def dependencies (s : IndexedGraph) (n : Node) : List Edge := s.incident Link.source n

/-- The edges that enter a node. -/
def dependents (s : IndexedGraph) (n : Node) : List Edge := s.incident Link.target n

end IndexedGraph

/-! ## searches -/

/-- A search with a queue: what was found so far, and what is still to be looked
at. -/
structure Search (α : Type) where
  found : List α
  queue : List α
  deriving DecidableEq

namespace Search

variable {α : Type} [DecidableEq α]

/-- Meet something, which is queued unless it was found before. -/
def meet (s : Search α) (a : α) : Search α :=
  if a ∈ s.found then s else ⟨s.found ++ [a], s.queue ++ [a]⟩

/-- Take the first of the queue and meet its neighbours. -/
def look (next : α → List α) (s : Search α) : Search α :=
  match s.queue with
  | [] => s
  | a :: queue => (next a).foldl meet ⟨s.found, queue⟩

/-- A search begins with its start queued, but not found. -/
def start (a : α) : Search α := ⟨[], [a]⟩

end Search

namespace IndexedGraph

/-- The numbers at the other ends of the links with a number at one end, along
the most recently added link first. -/
def neighbours (s : IndexedGraph) (side other : Link → Nat) (number : Nat) : List Nat :=
  (s.links.filter (side · = number)).reverse.map other

/-- The nodes that a search from a node finds, in order; none if the node has no
number.  As many looks as there are nodes, and one at the start, suffice. -/
def search (s : IndexedGraph) (side other : Link → Nat) (n : Node) : List Node :=
  match s.number? n with
  | none => []
  | some number =>
    ((Search.look (s.neighbours side other))^[s.nodes.length + 1] (.start number)).found.filterMap
      (s.nodes[·]?)

/-- What is found along the links that leave. -/
def allDependencies (s : IndexedGraph) (n : Node) : List Node := s.search Link.source Link.target n

/-- What is found along the links that enter. -/
def allDependents (s : IndexedGraph) (n : Node) : List Node := s.search Link.target Link.source n

end IndexedGraph

end CallGraphs
