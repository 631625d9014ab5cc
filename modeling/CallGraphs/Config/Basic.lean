import CallGraphs.Error
import CallGraphs.QualifiedName

/-!
# CallGraphs.Config.Basic

The configuration of a construction and its validation.

* `validate_eq_ok_iff` — what makes a configuration admissible.
-/

namespace CallGraphs

/-- The configuration of a construction: dotted names of the entry points,
a limit on the number of nodes, and whether single edges are reported. -/
structure Config where
  entryPoints : List String
  maxNodes : Option Nat
  traceEdges : Option Bool
  deriving DecidableEq, Repr

namespace Config

/-- The configuration that sets nothing. -/
def default : Config := ⟨[], none, none⟩

instance : Inhabited Config := ⟨default⟩

/-- Without entry points everything is visited. -/
def isExhaustive (c : Config) : Bool := c.entryPoints.isEmpty

/-- Single edges are reported only if that is asked for. -/
def effectiveTraceEdges (c : Config) : Bool := c.traceEdges.getD false

/-! ## validation -/

/-- Whether a text is the name of an entry point: without the blanks at its
ends, something stands before its last dot and something after it. -/
def isEntryPoint (entry : String) : Bool :=
  match Text.splitLast '.' (Text.trim entry.toList) with
  | some (space, name) => !space.isEmpty && !name.isEmpty
  | none => false

/-- Refuse a limit of zero, then the first text that names no entry point. -/
def validate (c : Config) : Except ConfigError Unit :=
  if c.maxNodes = some 0 then
    .error (.validationFailed "call_graph.max_nodes" "must be greater than 0")
  else
    match c.entryPoints.find? fun entry => !isEntryPoint entry with
    | some entry =>
      .error (.validationFailed "call_graph.entry_points"
        ("`" ++ entry ++ "` is not a qualified name of the form Namespace.Name"))
    | none => .ok ()

/-- A configuration is admissible when its limit is not zero and its entry
points are qualified names. -/
theorem validate_eq_ok_iff {c : Config} :
    c.validate = .ok () ↔
      c.maxNodes ≠ some 0 ∧ ∀ entry ∈ c.entryPoints, isEntryPoint entry = true := by
  unfold validate
  by_cases h : c.maxNodes = some 0
  · simp [h]
  · simp only [h, if_false]
    split
    · rename_i entry hfind
      have hbad := List.find?_some hfind
      have hmem := List.mem_of_find?_eq_some hfind
      simp only [reduceCtorEq, false_iff, not_and]
      exact fun _ hall => by simp [hall entry hmem] at hbad
    · rename_i hfind
      simpa [h] using hfind

end Config

end CallGraphs
