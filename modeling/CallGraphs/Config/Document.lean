import CallGraphs.Config.Basic
import CallGraphs.Text.Numeral
import CallGraphs.Toml.Document

/-!
# CallGraphs.Config.Document

The configuration in a TOML document.  It stands in the table `call_graph`;
other keys, there and beside it, are ignored.  A missing key leaves its
field unset, and a key with a value of another type is refused.

In place of the table there may be an array with the values of the three
fields in order, of which the last ones may be missing, or a date or time,
which sets nothing.
-/

namespace CallGraphs.Config

open Toml

/-! ## fields -/

/-- A list of strings. -/
def readStrings : Value → Option (List String)
  | .array items =>
    items.mapM fun
      | .string s => some s
      | _ => none
  | _ => none

/-- A number that is not negative. -/
def readNumber : Value → Option Nat
  | .integer n => if 0 ≤ n then some n.toNat else none
  | _ => none

/-- A truth value. -/
def readFlag : Value → Option Bool
  | .boolean b => some b
  | _ => none

/-- A field that may be missing. -/
def readField {α : Type} (read : Value → Option α) : Option Value → Option (Option α)
  | none => some none
  | some v => (read v).map some

/-- The configuration whose fields have the given values. -/
def ofFields (entryPoints maxNodes traceEdges : Option Value) : Option Config := do
  let entryPoints ← readField readStrings entryPoints
  let maxNodes ← readField readNumber maxNodes
  let traceEdges ← readField readFlag traceEdges
  return ⟨entryPoints.getD [], maxNodes, traceEdges⟩

/-! ## documents -/

/-- The configuration that a value holds. -/
def ofValue : Value → Option Config
  | .table _ entries =>
    ofFields (Entries.get? "entry_points" entries) (Entries.get? "max_nodes" entries)
      (Entries.get? "trace_edges" entries)
  | .array items => ofFields items[0]? items[1]? items[2]?
  | .moment => some default
  | _ => none

/-- The configuration in a document. -/
def ofEntries (entries : Entries) : Option Config :=
  match Entries.get? "call_graph" entries with
  | some v => ofValue v
  | none => some default

/-- Read the configuration in a text that comes from `path`.  Its values
are not yet validated. -/
def parse (path text : String) : Except ConfigError Config :=
  match Document.read? text with
  | none => .error (.parseError path "not a TOML document")
  | some entries =>
    match ofEntries entries with
    | none => .error (.parseError path "a key of the configuration has a value of another type")
    | some c => .ok c

/-- Read and validate the configuration in a text. -/
def ofToml (text : String) : Except ConfigError Config := do
  let c ← parse "<string>" text
  c.validate
  return c

end CallGraphs.Config
