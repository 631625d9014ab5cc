import CallGraphs.Proofs.Limits
import CallGraphs.Proofs.Search
import CallGraphs.Proofs.Termination

/-!
# CallGraphs.Proofs.Closure

Construction on demand against search.  A construction takes nodes out of a
worklist and puts edges into the graph while it runs; a search follows the edges
of the graph that is left.  Both come upon the same nodes: what a search finds
from the entry points was visited, and nothing else was.

* `visits_drain` — the visits that are reported, and what came out of the worklist;
* `Invariant.mem_nodes_iff_leads` — the nodes, and the edges that lead to them;
* `nodes_eq_searched` — constructions that end with a graph, with a limit or without.
-/

namespace CallGraphs

/-! ## visits -/

namespace Event

/-- The node that an event reports to be visited. -/
def visited? : Event → Option Node
  | .walking n _ => some n
  | .bodyless n => some n
  | .exhaustiveStart _ => none
  | .demandDrivenStart _ _ => none
  | .edge _ _ _ => none
  | .enqueued _ => none
  | .built _ => none

/-- The nodes that a log reports to be visited, in order. -/
def visits (log : List Event) : List Node := log.filterMap visited?

theorem visits_append (log more : List Event) : visits (log ++ more) = visits log ++ visits more :=
  List.filterMap_append

/-- To process a specialization for a node is to visit the node. -/
theorem visits_visit (s : Specialization) (n : Node) (pending : Nat) :
    visits [s.visit n pending] = [n] := by
  rw [Specialization.visit]
  cases s.body? <;> rfl

end Event

namespace Progress

variable {traceEdges : Bool} {p : Progress} {es : List Edge}

/-- To store an edge is no visit. -/
theorem visits_store (traceEdges : Bool) (p : Progress) (e : Edge) :
    Event.visits (p.store traceEdges e).events = Event.visits p.events := by
  cases traceEdges with
  | false => rfl
  | true =>
      refine (Event.visits_append p.events _).trans ?_
      exact List.append_nil _

/-- Nor is an offer. -/
theorem visits_offer (p : Progress) (n : Node) :
    Event.visits (p.offer n).events = Event.visits p.events := by
  rw [offer]
  split
  next =>
    refine (Event.visits_append p.events _).trans ?_
    exact List.append_nil _
  next => rfl

theorem visits_recordAll :
    Event.visits (p.recordAll traceEdges es).events = Event.visits p.events := by
  induction es generalizing p with
  | nil => rfl
  | cons e es ih => rw [recordAll_cons, ih, record, visits_offer, visits_store]

end Progress

namespace Builder

variable {b : Builder} {find? : QualifiedName → Option Callable} {p q : Progress} {n m : Node}
  {program : Program} {entryPoints : List QualifiedName} {looks : Nat}

/-- A node that is processed without an error is visited, and nothing comes out
of the worklist meanwhile. -/
theorem visits_processNode (h : b.processNode find? n p = .ok () q) :
    Event.visits q.events = Event.visits p.events ++ [n] ∧
      q.worklist.resolved = p.worklist.resolved := by
  obtain ⟨s, resolutions, -, -, rfl⟩ := processNode_eq_ok h
  refine ⟨?_, Progress.resolved_recordAll⟩
  rw [Emissions.record, Progress.events_note, Progress.visits_recordAll, Event.visits_append,
    Event.visits_visit]

/-- The nodes that came out of the worklist, in the order in which they did, are
visited one after the other. -/
theorem visits_drain {done : Bool} (h : b.drain find? looks p = .ok done q)
    (hp : Event.visits p.events = p.worklist.resolved.reverse) :
    Event.visits q.events = q.worklist.resolved.reverse := by
  induction looks generalizing p with
  | zero =>
      cases h
      exact hp
  | succ looks ih =>
      rw [drain_step] at h
      cases hpop : p.worklist.pop with
      | none =>
          rw [hpop] at h
          cases h
          exact hp
      | some next =>
          obtain ⟨n, w⟩ := next
          simp only [hpop] at h
          cases hn : b.processNode find? n { p with worklist := w } with
          | error e q' => simp [hn] at h
          | ok u q' =>
              rw [hn] at h
              obtain ⟨hvisits, hresolved⟩ := visits_processNode hn
              refine ih h ?_
              rw [hvisits, hp, hresolved, (Worklist.pop_eq_some hpop).2.1, List.reverse_cons]

/-! ## the nodes of a construction -/

/-- When nothing is pending, the nodes of the graph are the entry points and what
edges of the graph lead to from them. -/
theorem Invariant.mem_nodes_iff_leads (h : b.Invariant find? entryPoints p)
    (hpending : p.worklist.pending = []) :
    n ∈ p.graph.nodes ↔ ∃ name ∈ entryPoints, n = .entry name ∨ p.graph.Leads (.entry name) n := by
  have hmem (n : Node) : n ∈ p.graph.nodes ↔ b.Reached find? entryPoints n :=
    (h.mem_nodes_iff hpending).trans (h.mem_resolved_iff hpending)
  constructor
  · intro hn
    -- by induction on how the node is reached: each step was stored as an edge
    induction (hmem n).1 hn with
    | @entry name hname => exact ⟨name, hname, .inl rfl⟩
    | @step n m r hreached hemits ih =>
        have hedge : ⟨n, m, r⟩ ∈ p.graph.edges :=
          (h.edges _).2 ⟨(h.mem_resolved_iff hpending).2 hreached, hemits⟩
        obtain ⟨name, hname, rfl | hleads⟩ := ih ((hmem n).2 hreached)
        · exact ⟨name, hname, .inr (.single ⟨r, hedge⟩)⟩
        · exact ⟨name, hname, .inr (hleads.tail ⟨r, hedge⟩)⟩
  · rintro ⟨name, hname, rfl | hleads⟩
    · exact (hmem _).2 (.entry hname)
    · exact (CallGraph.mem_nodes_of_leads hleads).2

/-- A construction that ends with a graph reports a visit to each node that came
out of the worklist. -/
theorem visits_of_drain (hentries : entryPoints ≠ [])
    (h : b.drain program.find? looks (.initial (seeds entryPoints)) = .ok true q) :
    Event.visits (b.build program entryPoints looks).events = q.worklist.resolved.reverse := by
  have hevents : (b.build program entryPoints looks).events =
      [.demandDrivenStart program.nameCount entryPoints.length] ++ q.events ++
        [.built (statistics .demandDriven q)] := by
    rw [build, if_neg hentries, EStateM.run, h]
    rfl
  have hseeds : (seeds entryPoints).resolved = [] :=
    (mem_accepted_foldl_offer (w := .demandDriven) rfl entryPoints).2.1
  have hinitial : Event.visits (Progress.initial (seeds entryPoints)).events =
      (seeds entryPoints).resolved.reverse := by
    rw [hseeds]
    rfl
  rw [hevents, Event.visits_append, Event.visits_append]
  exact (List.append_nil _).trans (visits_drain h hinitial)

/-- Construction and search agree on what is reachable.  The nodes of a graph
that is built on demand, with a limit or without, are the entry points and what
a search through the finished graph finds from them, so that edges of the graph
lead from an entry point to every other node.  No node is left unvisited, and
none is visited twice: the visits that are reported are to the nodes of the
graph, each once, and the edges that leave a node are exactly those that a walk
of its body to the end records. -/
theorem nodes_eq_searched (b : Builder) (program : Program) (entryPoints : List QualifiedName)
    (looks : Nat) (hentries : entryPoints ≠ []) {g : CallGraph} {st : Statistics}
    (hbuilt : (b.build program entryPoints looks).outcome = .built g st) :
    (∀ n, n ∈ g.nodes ↔
      ∃ name ∈ entryPoints, n = .entry name ∨ n ∈ g.allDependencies (.entry name)) ∧
    (∀ n ∈ g.nodes, (∀ name ∈ entryPoints, n ≠ .entry name) →
      ∃ name ∈ entryPoints, g.Leads (.entry name) n) ∧
    (Event.visits (b.build program entryPoints looks).events).Perm g.nodes ∧
    ∀ n ∈ g.nodes, b.unlimited.Good program.find? n ∧
      ∀ m r, ⟨n, m, r⟩ ∈ g.edges ↔ b.unlimited.Emits program.find? n m r := by
  have hreport := build_eq_unlimited hbuilt
  rw [hreport] at hbuilt ⊢
  obtain ⟨q, hq, hpending, rfl, -, hdrain⟩ := exists_of_built hentries rfl hbuilt
  have hleads (n : Node) := hq.mem_nodes_iff_leads hpending (n := n)
  refine ⟨fun n => ?_, fun n hn hentry => ?_, ?_, fun n hn => ⟨?_, fun m r => ?_⟩⟩
  · rw [hleads]
    simp only [CallGraph.mem_allDependencies_iff]
  · obtain ⟨name, hname, rfl | hn⟩ := (hleads n).1 hn
    · exact absurd rfl (hentry name hname)
    · exact ⟨name, hname, hn⟩
  · rw [visits_of_drain hentries hdrain]
    refine (List.reverse_perm _).trans ?_
    exact (List.perm_ext_iff_of_nodup q.worklist.resolved_nodup q.graph.nodes_nodup).2
      fun n => (hq.mem_nodes_iff hpending).symm
  · exact hq.good n ((hq.mem_nodes_iff hpending).1 hn)
  · rw [hq.edges]
    exact and_iff_right ((hq.mem_nodes_iff hpending).1 hn)

/-- An entry point that is given twice and two operations that call each other,
within a limit that the graph comes up to. -/
theorem nodes_eq_searched_mutual_recursion :
    let b : Builder := ⟨Combiner.compose, ⟨some 3, false⟩⟩
    let program := MutualRecursion.program id
    let main := MutualRecursion.operationName "Main"
    [main, main] ≠ [] ∧ ∃ g st, (b.build program [main, main] 4).outcome = .built g st ∧
      g.nodes = [.entry main, MutualRecursion.instanceAt "A" 0,
        MutualRecursion.instanceAt "B" 0] ∧
      ∀ n, n ∈ g.nodes ↔
        ∃ name ∈ [main, main], n = .entry name ∨ n ∈ g.allDependencies (.entry name) := by
  intro b program main
  have hentries : [main, main] ≠ [] := List.cons_ne_nil _ _
  have hnodes : (b.build program [main, main] 4).outcome.graph?.map (·.nodes) =
      some [.entry main, MutualRecursion.instanceAt "A" 0, MutualRecursion.instanceAt "B" 0] := by
    decide +kernel
  obtain ⟨g, st, hbuilt, hnodes⟩ := Outcome.exists_built hnodes
  exact ⟨hentries, g, st, hbuilt, hnodes,
    (nodes_eq_searched b program [main, main] 4 hentries hbuilt).1⟩

end Builder

end CallGraphs
