import CallGraphs.Config.Document
import CallGraphs.Proofs.Statements

/-!
# CallGraphs.Proofs.Reloading

A configuration that is written as a document and read again is the same one.
What is read is then validated, so a configuration that is not admissible is
refused with the error of its own validation.

* `readsAs_written` — the statements of a written configuration;
* `ofEntries_fields` — the configuration that its table holds;
* `toToml_reloads` — writing and reading a configuration.
-/

namespace CallGraphs.Config

open Toml

variable {c : Config}

/-! ## the text of a document -/

/-- The keys of a written configuration with their values. -/
def fields (c : Config) : Entries :=
  ("entry_points", .array (stringValues (c.entryPoints.map String.toList))) ::
    ((c.maxNodes.map fun n => ("max_nodes", .integer n)).toList ++
      (c.traceEdges.map fun b => ("trace_edges", .boolean b)).toList)

theorem nodup_fields (c : Config) : (c.fields.map Prod.fst).Nodup := by
  obtain ⟨entryPoints, maxNodes, traceEdges⟩ := c
  cases maxNodes <;> cases traceEdges <;> simp [fields]

theorem map_fields (c : Config) : c.fields.map Document.assignment =
    .assignment [] "entry_points" (.array (stringValues (c.entryPoints.map String.toList))) ::
      ((c.maxNodes.map fun n => .assignment [] "max_nodes" (.integer n)).toList ++
        ((c.traceEdges.map fun b => .assignment [] "trace_edges" (.boolean b)).toList ++ [])) := by
  obtain ⟨entryPoints, maxNodes, traceEdges⟩ := c
  cases maxNodes <;> cases traceEdges <;> rfl

theorem written_eq (c : Config) : c.written =
    '[' :: ("call_graph".toList ++ ']' :: '\n' ::
      (writeLine "entry_points" (writeStrings (c.entryPoints.map String.toList)) ++
        (writeOption "max_nodes" (Nat.toDigits 10) c.maxNodes ++
          (writeOption "trace_edges" writeFlag c.traceEdges ++ [])))) := by
  have hheader : "[call_graph]\n".toList = '[' :: ("call_graph".toList ++ [']', '\n']) := by
    decide
  unfold written
  simp only [hheader, List.cons_append, List.append_assoc, List.nil_append, List.append_nil]

/-- A configuration is written as the header of its table and the lines of its
fields. -/
theorem readsAs_written (hlimit : ∀ n ∈ c.maxNodes, n ≤ maxInteger) :
    ReadsAs c.written (.table [] "call_graph" :: c.fields.map Document.assignment) := by
  have htrace := readsAs_nil.writeOption "trace_edges" c.traceEdges rfl
    (fun b _ => startsToken_writeFlag b) fun b _ => value_writeFlag b []
  have hmax := htrace.writeOption "max_nodes" c.maxNodes rfl
    (fun n _ => startsToken_toDigits n) fun n hn => value_toDigits (hlimit n hn) _
  have hentries := hmax.writeLine "entry_points" rfl (startsToken_writeStrings _)
    (value_writeStrings (c.entryPoints.map String.toList) _)
  rw [map_fields, written_eq]
  exact hentries.header "call_graph" rfl

/-- The document of a configuration holds the table of its fields. -/
theorem read?_written (hlimit : ∀ n ∈ c.maxNodes, n ≤ maxInteger) :
    Document.read? (String.ofList c.written) = some [("call_graph", .table .header c.fields)] := by
  have hmark : Document.dropMark c.written = c.written := by
    rw [written_eq]
    rfl
  rw [Document.read?, String.toList_ofList, hmark, readsAs_written hlimit _ (Nat.le_refl _)]
  exact Document.ofStatements_table "call_graph" c.nodup_fields

/-! ## the fields of a document -/

/-- The values of a list of texts are read as these texts. -/
theorem readStrings_stringValues (texts : List String) :
    readStrings (.array (stringValues (texts.map String.toList))) = some texts := by
  induction texts with
  | nil => rfl
  | cons text texts ih =>
      simp only [readStrings, stringValues, List.map_cons, List.mapM_cons,
        String.ofList_toList] at ih ⊢
      rw [ih]
      rfl

/-- The table of the fields of a configuration holds the configuration. -/
theorem ofEntries_fields (c : Config) :
    ofEntries [("call_graph", .table .header c.fields)] = some c := by
  have hfields : ofEntries [("call_graph", .table .header c.fields)] =
      ofFields (some (.array (stringValues (c.entryPoints.map String.toList))))
        (c.maxNodes.map fun n => .integer n) (c.traceEdges.map .boolean) := by
    obtain ⟨entryPoints, maxNodes, traceEdges⟩ := c
    cases maxNodes <;> cases traceEdges <;> rfl
  have hmax : readField readNumber (c.maxNodes.map fun n => .integer n) = some c.maxNodes := by
    cases h : c.maxNodes <;> simp [readField, readNumber]
  have htrace : readField readFlag (c.traceEdges.map .boolean) = some c.traceEdges := by
    cases c.traceEdges <;> rfl
  rw [hfields, ofFields, readField, readStrings_stringValues, hmax, htrace]
  rfl

/-- Reading what was written of a configuration. -/
theorem parse_written (hlimit : ∀ n ∈ c.maxNodes, n ≤ maxInteger) (path : String) :
    parse path (String.ofList c.written) = .ok c := by
  rw [parse, read?_written hlimit]
  simp only [ofEntries_fields]

/-! ## writing and reading -/

/-- An inadmissible configuration is refused because of one of its values. -/
theorem exists_validationFailed {e : ConfigError} (h : c.validate = .error e) :
    ∃ field reason, e = .validationFailed field reason := by
  unfold validate at h
  split at h
  · cases h
    exact ⟨_, _, rfl⟩
  split at h
  · cases h
    exact ⟨_, _, rfl⟩
  · cases h

/-- A configuration cannot be written exactly if its limit is no TOML
integer. -/
theorem toToml_error_iff (c : Config) :
    (∃ e, c.toToml = .error e) ↔ ∃ n, c.maxNodes = some n ∧ maxInteger < n := by
  unfold toToml
  split
  · rename_i hlimit
    exact iff_of_true ⟨_, rfl⟩ (by simpa [Option.any_eq_true] using hlimit)
  · rename_i hlimit
    refine iff_of_false nofun ?_
    rintro ⟨n, hn, hlt⟩
    exact hlimit (by simp [hn, hlt])

theorem eq_of_toToml {text : String} (h : c.toToml = .ok text) :
    (∀ n ∈ c.maxNodes, n ≤ maxInteger) ∧ text = String.ofList c.written := by
  unfold toToml at h
  split at h
  · cases h
  · rename_i hlimit
    cases h
    refine ⟨fun n hn => Nat.le_of_not_lt fun hlt => hlimit ?_, rfl⟩
    rw [Option.mem_def.1 hn]
    exact decide_eq_true hlt

/-- A configuration survives writing and reading.  It can be written unless
its limit is larger than a TOML integer.  What was written is read back as the
same configuration if that passes validation, and refused with the error of its
validation otherwise. -/
theorem toToml_reloads (c : Config) :
    ((∃ e, c.toToml = .error e) ↔ ∃ n, c.maxNodes = some n ∧ Nat.pow 2 63 - 1 < n) ∧
    ∀ text, c.toToml = .ok text →
      (c.validate = .ok () → ofToml text = .ok c) ∧
      ∀ e, c.validate = .error e →
        ofToml text = .error e ∧ ∃ field reason, e = .validationFailed field reason := by
  refine ⟨c.toToml_error_iff, fun text h => ?_⟩
  obtain ⟨hlimit, rfl⟩ := eq_of_toToml h
  have hread : ofToml (String.ofList c.written) = (c.validate >>= fun _ => .ok c) := by
    rw [ofToml, parse_written hlimit]
    rfl
  refine ⟨fun hvalid => ?_, fun e he => ⟨?_, exists_validationFailed he⟩⟩
  · rw [hread, hvalid]
    rfl
  · rw [hread, he]
    rfl

end CallGraphs.Config
