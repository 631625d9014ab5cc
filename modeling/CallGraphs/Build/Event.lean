import CallGraphs.Graph.Node

/-!
# CallGraphs.Build.Event

What a construction reports while it runs.  Every event has a level, a
message and named fields; a reader chooses the level up to which events are
listed.

* `Event.upTo` — the events of a log that a reader of a given level sees.
-/

namespace CallGraphs

/-- How a construction visits the program: everything, or what the entry
points reach. -/
inductive Mode where
  | exhaustive
  | demandDriven
  deriving DecidableEq, Repr

/-- The text of a mode. -/
def Mode.text : Mode → String
  | .exhaustive => "exhaustive"
  | .demandDriven => "demand-driven"

/-- The figures of a finished construction.  A specialization counts as
processed whether or not it has a body. -/
structure Statistics where
  mode : Mode
  processed : Nat
  nodes : Nat
  edges : Nat
  deriving DecidableEq, Repr

/-- The levels of events, the most important first. -/
inductive Level where
  | info
  | debug
  | trace
  deriving DecidableEq, Repr

namespace Level

/-- The text of a level. -/
def text : Level → String
  | .info => "INFO"
  | .debug => "DEBUG"
  | .trace => "TRACE"

/-- How far a level is from the most important one. -/
def depth : Level → Nat
  | .info => 0
  | .debug => 1
  | .trace => 2

end Level

/-- What is reported while a call graph is built. -/
inductive Event where
  | exhaustiveStart (callables : Nat)
  | demandDrivenStart (callables entryPoints : Nat)
  | walking (node : Node) (pending : Nat)
  | bodyless (node : Node)
  | edge (caller callee : Node) (inserted : Bool)
  | enqueued (node : Node)
  | built (statistics : Statistics)
  deriving DecidableEq

namespace Event

/-- The level of an event. -/
def level : Event → Level
  | .exhaustiveStart _ => .info
  | .demandDrivenStart _ _ => .info
  | .walking _ _ => .debug
  | .bodyless _ => .debug
  | .edge _ _ _ => .trace
  | .enqueued _ => .debug
  | .built _ => .info

/-- The message of an event. -/
def message : Event → String
  | .exhaustiveStart _ => "building call graph exhaustively"
  | .demandDrivenStart _ _ => "building call graph from entry points"
  | .walking _ _ => "walking specialization"
  | .bodyless _ => "no body to walk"
  | .edge _ _ _ => "call edge"
  | .enqueued _ => "enqueued"
  | .built _ => "call graph built"

/-- The value of a field of an event. -/
inductive Value where
  | number (n : Nat)
  | flag (b : Bool)
  | text (s : String)
  deriving DecidableEq, Repr

/-- The fields of an event with their names. -/
def fields : Event → List (String × Value)
  | .exhaustiveStart callables => [("callables", .number callables)]
  | .demandDrivenStart callables entryPoints =>
    [("callables", .number callables), ("entry_points", .number entryPoints)]
  | .walking node pending => [("node", .text node.text), ("pending", .number pending)]
  | .bodyless node => [("node", .text node.text)]
  | .edge caller callee inserted =>
    [("caller", .text caller.text), ("callee", .text callee.text), ("inserted", .flag inserted)]
  | .enqueued node => [("node", .text node.text)]
  | .built s =>
    [("mode", .text s.mode.text), ("nodes", .number s.nodes), ("edges", .number s.edges),
      ("processed", .number s.processed)]

/-- The events of a log that are at most as deep as the given level. -/
def upTo (level : Level) (log : List Event) : List Event :=
  log.filter fun e => e.level.depth ≤ level.depth

/-- The deepest level lists every event. -/
theorem upTo_trace (log : List Event) : upTo .trace log = log := by
  refine List.filter_eq_self.2 fun e _ => ?_
  cases e <;> simp [level, Level.depth]

end Event

end CallGraphs
