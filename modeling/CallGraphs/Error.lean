/-!
# CallGraphs.Error

What can go wrong while a call graph is built or a configuration is read.
Every error has a stable code, on which a later stage can match, and a text
for people.

* `BuildError` — contradictions met while the graph is built;
* `ConfigError` — a configuration that cannot be read or is not admissible;
* `AnalysisError` — either of the two, for a configured build.
-/

namespace CallGraphs

/-- Errors with a stable code and a text. -/
class Coded (ε : Type) where
  code : ε → String
  message : ε → String

export Coded (code message)

/-- The text of an error after its code in brackets. -/
def codedText {ε : Type} [Coded ε] (e : ε) : String := "[" ++ code e ++ "] " ++ message e

/-! ## building -/

/-- Contradictions met while a call graph is built.  Each of them ends the
construction. -/
inductive BuildError where
  | undeclaredCallable (name : String)
  | specializationNotFound (callable kind : String)
  | ambiguousSpecialization (callable kind : String) (count : Nat)
  | typeArgumentArity (callable : String) (expected found : Nat)
  | unresolvedTypeParameter (callable parameter caller : String)
  | resolutionConflict (parameter first second : String)
  | selfReference (parameter resolved : String)
  | nodeLimitExceeded (limit : Nat)
  deriving DecidableEq, Repr

instance : Coded BuildError where
  code
    | .undeclaredCallable _ => "UNDECLARED_CALLABLE"
    | .specializationNotFound _ _ => "SPECIALIZATION_NOT_FOUND"
    | .ambiguousSpecialization _ _ _ => "AMBIGUOUS_SPECIALIZATION"
    | .typeArgumentArity _ _ _ => "TYPE_ARGUMENT_ARITY"
    | .unresolvedTypeParameter _ _ _ => "UNRESOLVED_TYPE_PARAMETER"
    | .resolutionConflict _ _ _ => "RESOLUTION_CONFLICT"
    | .selfReference _ _ => "RESOLUTION_CONFLICT"
    | .nodeLimitExceeded _ => "NODE_LIMIT_EXCEEDED"
  message
    | .undeclaredCallable name => s!"Couldn't find definition for callable: {name}"
    | .specializationNotFound callable kind =>
      s!"No {kind} specialization without type arguments found for {callable}"
    | .ambiguousSpecialization callable kind count =>
      s!"Found {count} {kind} specializations without type arguments for {callable}, " ++
        "expected exactly one"
    | .typeArgumentArity callable expected found =>
      s!"{callable} declares {expected} type parameters but {found} type arguments were given"
    | .unresolvedTypeParameter callable parameter caller =>
      s!"Type parameter {parameter} of {callable} is unresolved at a reference from {caller}"
    | .resolutionConflict parameter first second =>
      s!"Conflicting resolutions for type parameter {parameter}: {first} and {second}"
    | .selfReference parameter resolved =>
      s!"Type parameter {parameter} resolves to {resolved}, which refers to itself"
    | .nodeLimitExceeded limit =>
      s!"Call graph exceeded the configured limit of {limit} nodes"

/-! ## configuration -/

/-- Why a configuration is refused. -/
inductive ConfigError where
  | fileNotFound (path : String)
  | parseError (path reason : String)
  | validationFailed (field reason : String)
  | invalidValue (field reason : String)
  deriving DecidableEq, Repr

instance : Coded ConfigError where
  code _ := "CONFIG_ERROR"
  message
    | .fileNotFound path => s!"Config file not found: {path}"
    | .parseError path reason => s!"Config parse error in {path}: {reason}"
    | .validationFailed field reason => s!"Config validation failed for {field}: {reason}"
    | .invalidValue field reason => s!"Invalid config value for {field}: {reason}"

/-! ## configured builds -/

/-- What can go wrong in a configured build: the construction or the
configuration. -/
inductive AnalysisError where
  | build (error : BuildError)
  | config (error : ConfigError)
  deriving DecidableEq, Repr

instance : Coded AnalysisError where
  code
    | .build e => code e
    | .config e => code e
  message
    | .build e => "Call graph error: " ++ message e
    | .config e => "Configuration error: " ++ message e

end CallGraphs
