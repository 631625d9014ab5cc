import CallGraphs.Config.Document
import CallGraphs.Text.Blank
import CallGraphs.Text.Split

/-!
# CallGraphs.Config.Layers

Loading a configuration from its layers.  From the lowest priority to the
highest they are: the defaults, the file of the project, the variables of
the environment, and overrides.  Each layer sets the fields that it has a
value for, and the result is validated as a whole.

* `load` — the configuration of all layers.
-/

namespace CallGraphs.Config

/-! ## the project file -/

/-- The name of the configuration file in the root of a project. -/
def projectFile : String := "callgraph.toml"

/-- The path of a file in a directory.  A separator is put between the two, but
not behind the empty path, nor behind one that ends in a separator. -/
def filePath (directory file : String) : String :=
  match directory.toList.getLast? with
  | none => file
  | some '/' => directory ++ file
  | some _ => directory ++ "/" ++ file

example :
    filePath "" projectFile = "callgraph.toml" ∧
    filePath "project/" projectFile = "project/callgraph.toml" ∧
    filePath "project" projectFile = "project/callgraph.toml" := by decide

/-- What is found in place of the project file. -/
inductive ProjectFile where
  | absent
  | unreadable
  | contents (text : String)

/-- A file of the given bytes.  It is readable if they are UTF-8. -/
def ProjectFile.ofBytes (bytes : ByteArray) : ProjectFile :=
  match String.fromUTF8? bytes with
  | some text => .contents text
  | none => .unreadable

/-- Set the fields that the configuration of a file sets.  An empty list of
entry points sets none. -/
def merge (c file : Config) : Config where
  entryPoints := if file.entryPoints = [] then c.entryPoints else file.entryPoints
  maxNodes := file.maxNodes <|> c.maxNodes
  traceEdges := file.traceEdges <|> c.traceEdges

/-- Take the layer of the project file at `path`. -/
def mergeFile (path : String) (c : Config) : ProjectFile → Except ConfigError Config
  | .absent => .ok c
  | .unreadable => .error (.fileNotFound path)
  | .contents text => do
    let file ← parse path text
    return c.merge file

/-! ## the environment -/

/-- The values of the environment variables, of those that are set. -/
structure Environment where
  entryPoints : Option String
  maxNodes : Option String
  traceEdges : Option String

/-- The value of an environment variable of the given bytes.  It counts as
unset if they are not UTF-8. -/
def Environment.ofBytes (bytes : ByteArray) : Option String := String.fromUTF8? bytes

/-- The entry points in a list with commas: its pieces without the blanks at
their ends, less the empty ones. -/
def splitEntryPoints (s : String) : List String :=
  (((Text.pieces ',' s.toList).map Text.trim).filter (· ≠ [])).map String.ofList

/-- Take the entry points of the environment, if it names any. -/
def withEntryPoints (c : Config) (value : String) : Config :=
  if splitEntryPoints value = [] then c else { c with entryPoints := splitEntryPoints value }

/-- Take the limit of the environment, which has to be a count. -/
def withMaxNodes (c : Config) (value : String) : Except ConfigError Config :=
  match Text.readCount value.toList with
  | .ok n => .ok { c with maxNodes := some n }
  | .error e => .error (.invalidValue "CALLGRAPH_MAX_NODES" e.message)

/-- Take the flag of the environment, if it is a truth value. -/
def withTraceEdges (c : Config) (value : String) : Config :=
  if value = "true" then { c with traceEdges := some true }
  else if value = "false" then { c with traceEdges := some false }
  else c

/-- Take the layer of the environment. -/
def applyEnvironment (c : Config) (env : Environment) : Except ConfigError Config := do
  let c := env.entryPoints.elim c c.withEntryPoints
  let c ← env.maxNodes.elim (.ok c) c.withMaxNodes
  return env.traceEdges.elim c c.withTraceEdges

/-! ## overrides -/

/-- Values that override those of all other layers. -/
structure Overrides where
  entryPoints : Option (List String)
  maxNodes : Option Nat
  traceEdges : Option Bool

/-- Take the layer of the overrides.  An empty list of entry points counts
as a value. -/
def applyOverrides (c : Config) (o : Overrides) : Config where
  entryPoints := o.entryPoints.getD c.entryPoints
  maxNodes := o.maxNodes <|> c.maxNodes
  traceEdges := o.traceEdges <|> c.traceEdges

/-! ## all layers -/

/-- Load the configuration of the project in the directory `root`. -/
def load (root : String) (file : ProjectFile) (env : Environment) (overrides : Option Overrides) :
    Except ConfigError Config := do
  let c ← mergeFile (filePath root projectFile) default file
  let c ← c.applyEnvironment env
  let c := overrides.elim c c.applyOverrides
  c.validate
  return c

end CallGraphs.Config
