import CallGraphs.Build.Builder
import CallGraphs.Config.Basic

/-!
# CallGraphs.Build.Configured

Building with the settings and the entry points of a configuration.  The
names are read in order, and the first text that is no qualified name ends
the build before it begins.
-/

namespace CallGraphs

namespace Config

/-- Read one entry point. -/
def entryPoint (entry : String) : Except ConfigError QualifiedName :=
  match QualifiedName.parse? entry with
  | some name => .ok name
  | none =>
    .error (.invalidValue "call_graph.entry_points"
      ("`" ++ entry ++ "` is not a qualified name"))

/-- Read the entry points, in order. -/
def readEntryPoints (c : Config) : Except ConfigError (List QualifiedName) :=
  c.entryPoints.mapM entryPoint

end Config

namespace Builder

/-- The builder with the settings of a configuration. -/
def ofConfig (c : Config) : Builder := ⟨Combiner.compose, ⟨c.maxNodes, c.effectiveTraceEdges⟩⟩

/-- The same outcome with another type of errors. -/
def Outcome.mapError {ε δ : Type} (f : ε → δ) : Outcome ε → Outcome δ
  | .built graph statistics => .built graph statistics
  | .failed error => .failed (f error)
  | .unfinished => .unfinished

/-- Build as a configuration says. -/
def buildConfigured (p : Program) (c : Config) (looks : Nat) : Report AnalysisError :=
  match c.readEntryPoints with
  | .error e => ⟨.failed (.config e), [], []⟩
  | .ok entryPoints =>
    let report := (ofConfig c).build p entryPoints looks
    ⟨report.outcome.mapError .build, report.events, report.chains⟩

end Builder

end CallGraphs
