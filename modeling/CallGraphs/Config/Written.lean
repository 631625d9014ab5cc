import CallGraphs.Config.Basic
import CallGraphs.Toml.Number
import CallGraphs.Toml.Writing

/-!
# CallGraphs.Config.Written

Writing a configuration as a TOML document: the table `call_graph` with the
entry points, and the other fields if they are set.  A number that is no
TOML integer cannot be written.
-/

namespace CallGraphs.Config

open Toml

/-- A key with the text of its value, on a line. -/
def writeLine (key : String) (value : List Char) : List Char :=
  key.toList ++ [' ', '=', ' '] ++ value ++ ['\n']

/-- The line of a field if it is set. -/
def writeOption {α : Type} (key : String) (write : α → List Char) : Option α → List Char
  | none => []
  | some a => writeLine key (write a)

/-- The text of a truth value. -/
def writeFlag (b : Bool) : List Char := (if b then "true" else "false").toList

/-- The document of a configuration. -/
def written (c : Config) : List Char :=
  "[call_graph]\n".toList ++
    writeLine "entry_points" (writeStrings (c.entryPoints.map String.toList)) ++
    writeOption "max_nodes" (Nat.toDigits 10) c.maxNodes ++
    writeOption "trace_edges" writeFlag c.traceEdges

/-- Write a configuration. -/
def toToml (c : Config) : Except ConfigError String :=
  if c.maxNodes.any (maxInteger < ·) then
    .error (.parseError "<serialization>" "max_nodes is out of range for an integer")
  else .ok (String.ofList c.written)

end CallGraphs.Config
