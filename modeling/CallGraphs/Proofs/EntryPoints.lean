import CallGraphs.Build.Configured
import CallGraphs.Config.Layers

/-!
# CallGraphs.Proofs.EntryPoints

The entry points of a configuration are checked twice: when it is validated,
and when its texts are read for a construction.  The two checks agree on every
text, so a configuration that was validated never fails for its entry points.

* `isSome_parse?` — a text can be read as a name exactly when it passes the check;
* `validate_of_firstRejected` — a validation fails with a text that the check rejects;
* `failed_config_iff` — the only failures for a configuration are those of its entry points;
* `buildConfigured_names` — what a configured construction does.
-/

namespace CallGraphs

namespace Config

variable {c : Config} {entry : String}

/-! ## one entry point -/

/-- A text can be read as a qualified name exactly when it passes the check of
a validation. -/
theorem isSome_parse? (entry : String) :
    (QualifiedName.parse? entry).isSome = isEntryPoint entry := by
  rw [QualifiedName.parse?, isEntryPoint]
  cases Text.splitLast '.' (Text.trim entry.toList) with
  | none => rfl
  | some cut =>
      obtain ⟨space, name⟩ := cut
      cases space <;> cases name <;> rfl

/-- The refusal of a text in a configured construction. -/
def notQualified (entry : String) : ConfigError :=
  .invalidValue "call_graph.entry_points" ("`" ++ entry ++ "` is not a qualified name")

theorem entryPoint_of_rejected (h : isEntryPoint entry = false) :
    entryPoint entry = .error (notQualified entry) := by
  rw [← isSome_parse?, Option.isSome_eq_false_iff, Option.isNone_iff_eq_none] at h
  rw [entryPoint, h]
  rfl

theorem exists_entryPoint_of_accepted (h : isEntryPoint entry = true) :
    ∃ name, QualifiedName.parse? entry = some name ∧ entryPoint entry = .ok name := by
  rw [← isSome_parse?, Option.isSome_iff_exists] at h
  obtain ⟨name, hname⟩ := h
  exact ⟨name, hname, by rw [entryPoint, hname]⟩

/-! ## the first rejected one -/

/-- The first of several texts that does not pass the check. -/
def FirstRejected (entries : List String) (entry : String) : Prop :=
  ∃ before after, entries = before ++ entry :: after ∧
    (∀ other ∈ before, isEntryPoint other = true) ∧ isEntryPoint entry = false

theorem find?_eq_some_iff_firstRejected {entries : List String} :
    (entries.find? fun entry => !isEntryPoint entry) = some entry ↔
      FirstRejected entries entry := by
  rw [List.find?_eq_some_iff_append]
  constructor
  · rintro ⟨hentry, before, after, hentries, hbefore⟩
    exact ⟨before, after, hentries, fun other hother => by simpa using hbefore other hother,
      by simpa using hentry⟩
  · rintro ⟨before, after, hentries, hbefore, hentry⟩
    exact ⟨by simpa using hentry, before, after, hentries,
      fun other hother => by simpa using hbefore other hother⟩

/-- Either all texts are accepted, or there is a first rejected one. -/
theorem accepted_or_firstRejected (entries : List String) :
    (∀ entry ∈ entries, isEntryPoint entry = true) ∨ ∃ entry, FirstRejected entries entry := by
  cases h : entries.find? fun entry => !isEntryPoint entry with
  | none => exact .inl (by simpa using h)
  | some entry => exact .inr ⟨entry, find?_eq_some_iff_firstRejected.1 h⟩

/-- A validation that has nothing against the limit refuses the first rejected
text. -/
theorem validate_of_firstRejected (hlimit : c.maxNodes ≠ some 0)
    (h : FirstRejected c.entryPoints entry) :
    c.validate = .error (.validationFailed "call_graph.entry_points"
      ("`" ++ entry ++ "` is not a qualified name of the form Namespace.Name")) := by
  rw [validate, if_neg hlimit, find?_eq_some_iff_firstRejected.2 h]

/-! ## reading them all -/

/-- Texts that are all accepted are read as names, in the same order. -/
theorem mapM_entryPoint_of_accepted {entries : List String}
    (h : ∀ entry ∈ entries, isEntryPoint entry = true) :
    ∃ names, entries.mapM entryPoint = .ok names ∧
      names.map some = entries.map QualifiedName.parse? := by
  induction entries with
  | nil => exact ⟨[], rfl, rfl⟩
  | cons entry entries ih =>
      obtain ⟨hentry, hrest⟩ := List.forall_mem_cons.1 h
      obtain ⟨name, hparse, hread⟩ := exists_entryPoint_of_accepted hentry
      obtain ⟨names, hreadAll, hnames⟩ := ih hrest
      refine ⟨name :: names, ?_, ?_⟩
      · rw [List.mapM_cons, hread, hreadAll]
        rfl
      · rw [List.map_cons, List.map_cons, hparse, hnames]

/-- The first rejected text ends the reading. -/
theorem mapM_entryPoint_of_firstRejected {entries : List String}
    (h : FirstRejected entries entry) :
    entries.mapM entryPoint = .error (notQualified entry) := by
  obtain ⟨before, after, rfl, hbefore, hentry⟩ := h
  obtain ⟨names, hread, -⟩ := mapM_entryPoint_of_accepted hbefore
  rw [List.mapM_append, hread, List.mapM_cons, entryPoint_of_rejected hentry]
  rfl

/-! ## loaded configurations -/

/-- A step and the ones after it succeed if they do so one after the other. -/
theorem bind_eq_ok_iff {α β : Type} {x : Except ConfigError α} {f : α → Except ConfigError β}
    {b : β} : (x >>= f) = .ok b ↔ ∃ a, x = .ok a ∧ f a = .ok b := by
  cases x <;> simp [bind, Except.bind]

/-- A configuration that is validated in the end is admissible. -/
theorem validate_of_validated {d : Config}
    (h : (do d.validate; return d : Except ConfigError Config) = .ok c) : c.validate = .ok () := by
  obtain ⟨_, hvalid, hc⟩ := bind_eq_ok_iff.1 h
  cases hc
  exact hvalid

/-- What is read from a document passes validation. -/
theorem validate_of_ofToml {text : String} (h : ofToml text = .ok c) : c.validate = .ok () := by
  obtain ⟨d, -, hd⟩ := bind_eq_ok_iff.1 h
  exact validate_of_validated hd

/-- So does what is loaded from all layers. -/
theorem validate_of_load {root : String} {file : ProjectFile} {env : Environment}
    {overrides : Option Overrides} (h : load root file env overrides = .ok c) :
    c.validate = .ok () := by
  obtain ⟨_, -, hfile⟩ := bind_eq_ok_iff.1 h
  obtain ⟨_, -, henv⟩ := bind_eq_ok_iff.1 hfile
  exact validate_of_validated henv

end Config

/-! ## configured constructions -/

namespace Builder

open Config

variable {c : Config} {entry : String}

/-- A rejected entry point ends a configured construction before it begins. -/
theorem buildConfigured_of_firstRejected (program : Program) (looks : Nat)
    (h : FirstRejected c.entryPoints entry) :
    buildConfigured program c looks = ⟨.failed (.config (notQualified entry)), [], []⟩ := by
  rw [buildConfigured, readEntryPoints, mapM_entryPoint_of_firstRejected h]

/-- Entry points that are all accepted are those of the construction. -/
theorem buildConfigured_of_accepted (program : Program) (looks : Nat)
    (h : ∀ entry ∈ c.entryPoints, isEntryPoint entry = true) :
    ∃ names, names.map some = c.entryPoints.map QualifiedName.parse? ∧
      buildConfigured program c looks =
        let report := (ofConfig c).build program names looks
        ⟨report.outcome.mapError .build, report.events, report.chains⟩ := by
  obtain ⟨names, hread, hnames⟩ := mapM_entryPoint_of_accepted h
  refine ⟨names, hnames, ?_⟩
  rw [buildConfigured, readEntryPoints, hread]

/-- An error of the construction itself is none of the configuration. -/
theorem mapError_ne_config (outcome : Outcome BuildError) (e : ConfigError) :
    outcome.mapError AnalysisError.build ≠ .failed (.config e) := by
  cases outcome <;> simp [Outcome.mapError]

/-- A configured construction fails because of its configuration exactly if an
entry point is rejected. -/
theorem failed_config_iff (program : Program) (c : Config) (looks : Nat) :
    (∃ e, (buildConfigured program c looks).outcome = .failed (.config e)) ↔
      ∃ entry ∈ c.entryPoints, isEntryPoint entry = false := by
  obtain haccepted | ⟨entry, hentry⟩ := accepted_or_firstRejected c.entryPoints
  · obtain ⟨names, -, hreport⟩ := buildConfigured_of_accepted program looks haccepted
    rw [hreport]
    constructor
    · rintro ⟨e, he⟩
      exact absurd he (mapError_ne_config _ e)
    · rintro ⟨entry, hmem, hrejected⟩
      rw [haccepted entry hmem] at hrejected
      cases hrejected
  · rw [buildConfigured_of_firstRejected program looks hentry]
    obtain ⟨before, after, hentries, -, hrejected⟩ := hentry
    exact iff_of_true ⟨_, rfl⟩ ⟨entry, by simp [hentries], hrejected⟩

/-- A configured construction fails because of its configuration exactly if a
validation without regard to the limit would reject an entry point, and it
names the first such one, as the validation does.  Otherwise it is the
construction with the settings of the configuration, from its entry points in
their order, each read as a name.  So no configuration that was loaded from its
layers or read from a document is refused. -/
theorem buildConfigured_names (program : Program) (c : Config) (looks : Nat) :
    let report := buildConfigured program c looks
    ((∃ e, report.outcome = .failed (.config e)) ↔
      ∃ entry ∈ c.entryPoints, isEntryPoint entry = false) ∧
    (∀ entry, FirstRejected c.entryPoints entry →
      report.outcome = .failed (.config (.invalidValue "call_graph.entry_points"
        ("`" ++ entry ++ "` is not a qualified name"))) ∧
      { c with maxNodes := none }.validate = .error (.validationFailed "call_graph.entry_points"
        ("`" ++ entry ++ "` is not a qualified name of the form Namespace.Name"))) ∧
    ((∀ entry ∈ c.entryPoints, isEntryPoint entry = true) →
      ∃ names, names.map some = c.entryPoints.map QualifiedName.parse? ∧
        report =
          let built := (⟨Combiner.compose, ⟨c.maxNodes, c.traceEdges.getD false⟩⟩ : Builder).build
            program names looks
          ⟨built.outcome.mapError .build, built.events, built.chains⟩) ∧
    (((∃ root file env overrides, load root file env overrides = .ok c) ∨
        ∃ text, ofToml text = .ok c) →
      ∀ e, report.outcome ≠ .failed (.config e)) := by
  intro report
  refine ⟨failed_config_iff program c looks, fun entry hentry => ⟨?_, ?_⟩, fun haccepted => ?_,
    fun hloaded e he => ?_⟩
  · exact congrArg Report.outcome (buildConfigured_of_firstRejected program looks hentry)
  · exact validate_of_firstRejected (c := { c with maxNodes := none }) nofun hentry
  · exact buildConfigured_of_accepted program looks haccepted
  · have hvalid : c.validate = .ok () := by
      obtain ⟨root, file, env, overrides, hload⟩ | ⟨text, hread⟩ := hloaded
      · exact validate_of_load hload
      · exact validate_of_ofToml hread
    obtain ⟨entry, hentry, hrejected⟩ := (failed_config_iff program c looks).1 ⟨e, he⟩
    rw [(validate_eq_ok_iff.1 hvalid).2 entry hentry] at hrejected
    cases hrejected

end Builder

end CallGraphs
