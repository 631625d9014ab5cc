import CallGraphs.Build.Builder
import CallGraphs.Build.Configured
import CallGraphs.Build.Event
import CallGraphs.Build.Progress
import CallGraphs.Build.Walk
import CallGraphs.CallContext
import CallGraphs.Config.Basic
import CallGraphs.Config.Document
import CallGraphs.Config.Layers
import CallGraphs.Config.Written
import CallGraphs.Error
import CallGraphs.Graph.Basic
import CallGraphs.Graph.Node
import CallGraphs.Graph.Search
import CallGraphs.Program
import CallGraphs.QualifiedName
import CallGraphs.Substitution.Apply
import CallGraphs.Substitution.Basic
import CallGraphs.Substitution.Composition
import CallGraphs.Substitution.Stack
import CallGraphs.Syntax.Equality
import CallGraphs.Syntax.Expression
import CallGraphs.Syntax.Outline
import CallGraphs.Syntax.Statement
import CallGraphs.Syntax.Visitor
import CallGraphs.Text.Blank
import CallGraphs.Text.Numeral
import CallGraphs.Text.Split
import CallGraphs.Toml.Character
import CallGraphs.Toml.Document
import CallGraphs.Toml.Moment
import CallGraphs.Toml.Number
import CallGraphs.Toml.Quoted
import CallGraphs.Toml.Reading
import CallGraphs.Toml.Value
import CallGraphs.Toml.Writing
import CallGraphs.Ty.Basic
import CallGraphs.Ty.Order
import CallGraphs.Worklist
import CallGraphs.Worklist.Indexed
import CallGraphs.Proofs.Reading
import CallGraphs.Proofs.Recording
import CallGraphs.Proofs.Replay
import CallGraphs.Proofs.Emissions
import CallGraphs.Proofs.Processing
import CallGraphs.Proofs.Reachability
import CallGraphs.Proofs.BoundTypes
import CallGraphs.Proofs.Termination
import CallGraphs.Proofs.Occurrences
import CallGraphs.Proofs.Absorption
import CallGraphs.Proofs.Chains
import CallGraphs.Proofs.Passing
import CallGraphs.Proofs.Resolution
import CallGraphs.Proofs.Concreteness
import CallGraphs.Proofs.Declarations
import CallGraphs.Proofs.Exhaustion
import CallGraphs.Proofs.Instantiation
import CallGraphs.Proofs.Limits
import CallGraphs.Proofs.PolymorphicRecursion
import CallGraphs.Proofs.Runs
import CallGraphs.Proofs.Settings
import CallGraphs.Proofs.Labels
import CallGraphs.Proofs.Fitting
import CallGraphs.Proofs.Budget
import CallGraphs.Proofs.Options
import CallGraphs.Proofs.Locality
import CallGraphs.Graph.Indexed
import CallGraphs.Proofs.Insertions
import CallGraphs.Proofs.Indexing
import CallGraphs.Proofs.Search
import CallGraphs.Proofs.Distance
import CallGraphs.Proofs.Closure
import CallGraphs.Proofs.Accounting
import CallGraphs.Proofs.EntryPoints
import CallGraphs.Proofs.Priority
import CallGraphs.Proofs.Quoting
import CallGraphs.Proofs.Statements
import CallGraphs.Proofs.Reloading
import CallGraphs.Proofs.Uses
import CallGraphs.Proofs.Exchange
import CallGraphs.Proofs.Requests
import CallGraphs.Proofs.Trimming
import CallGraphs.Proofs.Names
import CallGraphs.Proofs.EntryLists
import CallGraphs.Proofs.Parts
import CallGraphs.Proofs.Outlines
import CallGraphs.Proofs.Sequencing
import CallGraphs.Proofs.TotalOrder
import CallGraphs.Proofs.Restoration
