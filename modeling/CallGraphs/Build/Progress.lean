import CallGraphs.Build.Event
import CallGraphs.Error
import CallGraphs.Graph.Basic
import CallGraphs.Substitution.Composition
import CallGraphs.Worklist

/-!
# CallGraphs.Build.Progress

The state of a construction and its elementary step: recording one
dependency.  A failed construction keeps the state that it had reached, so
a partial graph can be looked at.

* `checkLimit_ok_iff` — the limit stops a construction exactly when the graph is above it.
-/

namespace CallGraphs

/-- What a construction has done so far: the graph, the worklist, how many
specializations were processed, the events and the chains of substitutions
that were combined. -/
structure Progress where
  graph : CallGraph
  worklist : Worklist
  processed : Nat
  events : List Event
  chains : List (List Substitution)

/-- The settings of a construction that do not change what is recorded. -/
structure Options where
  nodeLimit : Option Nat
  traceEdges : Bool
  deriving DecidableEq, Repr

/-- A step of a construction. -/
abbrev Build := EStateM BuildError Progress

namespace Progress

/-- The beginning of a construction with the given worklist. -/
def initial (worklist : Worklist) : Progress := ⟨∅, worklist, 0, [], []⟩

end Progress

namespace Build

/-- Report an event. -/
def report (event : Event) : Build Unit :=
  modify fun p => { p with events := p.events ++ [event] }

/-- Note a chain of substitutions that is handed to a combiner. -/
def noteChain (chain : List Substitution) : Build Unit :=
  modify fun p => { p with chains := p.chains ++ [chain] }

/-- Fail if the graph has more nodes than the limit allows. -/
def checkLimit (options : Options) : Build Unit := do
  match options.nodeLimit with
  | none => pure ()
  | some limit =>
    if limit < (← get).graph.nodeCount then throw (.nodeLimitExceeded limit)

theorem checkLimit_apply (options : Options) (p : Progress) :
    checkLimit options p =
      match options.nodeLimit with
      | none => .ok () p
      | some limit =>
        if limit < p.graph.nodeCount then .error (.nodeLimitExceeded limit) p else .ok () p := by
  unfold checkLimit
  cases options.nodeLimit with
  | none => rfl
  | some limit =>
      show (if limit < p.graph.nodeCount then throw (.nodeLimitExceeded limit)
        else pure () : Build Unit) p = _
      dsimp only
      by_cases h : limit < p.graph.nodeCount
      · rw [if_pos h, if_pos h]
        rfl
      · rw [if_neg h, if_neg h]
        rfl

/-- The limit stops a construction exactly when the graph is above it. -/
theorem checkLimit_ok_iff {options : Options} {p : Progress} :
    checkLimit options p = .ok () p ↔
      ∀ limit, options.nodeLimit = some limit → p.graph.nodeCount ≤ limit := by
  rw [checkLimit_apply]
  cases options.nodeLimit with
  | none => simp
  | some limit =>
      by_cases h : limit < p.graph.nodeCount
      · simp [h]
      · simp [h, Nat.not_lt.1 h]

/-- Put an edge with its ends into the graph.  The answer tells whether it
was new. -/
def addDependency (e : Edge) : Build Bool :=
  modifyGet fun p =>
    let (inserted, graph) := p.graph.addDependency e
    (inserted, { p with graph })

/-- Offer a node to the worklist.  The answer tells whether it was
accepted. -/
def offer (n : Node) : Build Bool :=
  modifyGet fun p =>
    let (accepted, worklist) := p.worklist.offer n
    (accepted, { p with worklist })

/-- Record a dependency: store the edge, watch the limit, then offer the
callee to the worklist. -/
def record (options : Options) (e : Edge) : Build Unit := do
  let inserted ← addDependency e
  if options.traceEdges then
    report (.edge e.caller e.callee inserted)
  checkLimit options
  let accepted ← offer e.callee
  if accepted then
    report (.enqueued e.callee)

end Build

end CallGraphs
