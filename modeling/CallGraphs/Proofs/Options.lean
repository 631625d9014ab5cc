import CallGraphs.Proofs.Budget
import CallGraphs.Proofs.Limits
import CallGraphs.Proofs.Tracing

/-!
# CallGraphs.Proofs.Options

What the settings do to a construction, in either mode and with any combiner.
The limit cuts it short where its graph exceeds the limit, and reports of
single edges are added to its events.  Neither changes anything else.

* `exceeds_iff` — where a graph exceeds a limit;
* `failed_of_exceeds` — what a limit does there;
* `build_options` — constructions under all settings.
-/

namespace CallGraphs

namespace Builder

/-! ## limits -/

section

variable {b : Builder} {program : Program} {entryPoints : List QualifiedName} {limit looks : Nat}

/-- At some point of a construction, whatever comes of it later, the graph has
more nodes than a limit allows. -/
def Exceeds (b : Builder) (program : Program) (entryPoints : List QualifiedName) (limit : Nat) :
    Prop :=
  ∃ looks q, b.Moves program entryPoints (start entryPoints) q ∧
    b.Moves program entryPoints q (b.state program entryPoints looks) ∧ limit < q.graph.nodeCount

/-- Then it has after some number of looks, as it does not shrink. -/
theorem exceeds_iff : b.Exceeds program entryPoints limit ↔
    ∃ looks, limit < (b.state program entryPoints looks).graph.nodeCount := by
  constructor
  · rintro ⟨looks, q, -, hrest, hlimit⟩
    exact ⟨looks, hlimit.trans_le hrest.prefix_nodes.length_le⟩
  · rintro ⟨looks, hlimit⟩
    exact ⟨looks, _, b.moves_run program entryPoints looks, .refl, hlimit⟩

/-- A graph that has come to its end has all the nodes that it ever has. -/
theorem nodeCount_le_of_ended
    (hended : ∀ q, b.run program entryPoints looks (start entryPoints) ≠ .ok false q)
    (more : Nat) : (b.state program entryPoints more).graph.nodeCount ≤
      (b.state program entryPoints looks).graph.nodeCount := by
  rcases Nat.le_total more looks with h | h
  · exact (b.moves_state program entryPoints h).prefix_nodes.length_le
  · have hsame : b.state program entryPoints more = b.state program entryPoints looks := by
      rw [state, state, Build.after, Build.after, run_eq_of_ended hended h]
    rw [hsame]

/-- With a limit, one look more than it allows nodes is enough. -/
theorem run_ended (program : Program) (entryPoints : List QualifiedName)
    (hlimit : b.options.nodeLimit = some limit) (hlooks : limit < looks) (q : Progress) :
    b.run program entryPoints looks (start entryPoints) ≠ .ok false q := by
  rw [run, start]
  by_cases h : entryPoints = []
  · simp only [if_pos h]
    rw [bind_apply]
    cases b.exhaust program (.initial .inactive) <;> exact fun h => by cases h
  · simp only [if_neg h]
    have hends := endsWithin_limit hlimit program.find? (seeds entryPoints)
    rw [hends.stays looks hlooks]
    exact hends.ends q

/-- So then it is known how the construction ends. -/
theorem outcome_ne_unfinished_of_limit (hlimit : b.options.nodeLimit = some limit)
    (hlooks : limit < looks) : (b.build program entryPoints looks).outcome ≠ .unfinished := by
  have hended := run_ended program entryPoints hlimit hlooks
  rw [build_eq_report]
  cases hrun : b.run program entryPoints looks (start entryPoints) with
  | error e q => exact fun h => by cases h
  | ok done q =>
      cases done with
      | true => exact fun h => by cases h
      | false => exact absurd hrun (hended q)

end

/-! ## constructions -/

variable (combiner : Combiner) (limit : Nat) (traceEdges : Bool) (program : Program)
  (entryPoints : List QualifiedName) (looks : Nat)

/-- A limit that the graph does not exceed changes nothing. -/
theorem build_limited_of_not_exceeds
    (h : ¬ (⟨combiner, ⟨none, traceEdges⟩⟩ : Builder).Exceeds program entryPoints limit) :
    (⟨combiner, ⟨some limit, traceEdges⟩⟩ : Builder).build program entryPoints looks =
      (⟨combiner, ⟨none, traceEdges⟩⟩ : Builder).build program entryPoints looks := by
  rw [build_eq_report, build_eq_report]
  obtain ⟨-, hsame⟩ | ⟨hbeyond, -⟩ :=
    run_limited_cases combiner limit traceEdges program entryPoints looks
  · rw [hsame]
  · exact absurd (exceeds_iff.2 ⟨looks, hbeyond⟩) h

/-- A limit that it exceeds ends the construction.  Had the graph stayed within
it so far, the limited construction would be the unlimited one and would have
come to its end, so that the graph would never exceed the limit. -/
theorem failed_of_exceeds
    (h : (⟨combiner, ⟨none, traceEdges⟩⟩ : Builder).Exceeds program entryPoints limit)
    (hlooks : limit < looks) :
    ((⟨combiner, ⟨some limit, traceEdges⟩⟩ : Builder).build program entryPoints looks).outcome =
      .failed (.nodeLimitExceeded limit) := by
  rw [build_eq_report]
  obtain ⟨hwithin, hsame⟩ | ⟨-, q, herror⟩ :=
    run_limited_cases combiner limit traceEdges program entryPoints looks
  · have hended := run_ended (b := ⟨combiner, ⟨some limit, traceEdges⟩⟩) program entryPoints rfl
      hlooks
    rw [hsame] at hended
    obtain ⟨more, hmore⟩ := exceeds_iff.1 h
    have hle := nodeCount_le_of_ended hended more
    exact absurd (hmore.trans_le (hle.trans hwithin)) (Nat.lt_irrefl limit)
  · rw [herror]
    rfl

/-- A graph is built with a limit exactly when it is built without and is
within the limit. -/
theorem built_limited_iff {g : CallGraph} {st : Statistics} :
    ((⟨combiner, ⟨some limit, traceEdges⟩⟩ : Builder).build program entryPoints looks).outcome =
        .built g st ↔
      ((⟨combiner, ⟨none, traceEdges⟩⟩ : Builder).build program entryPoints looks).outcome =
        .built g st ∧ g.nodeCount ≤ limit := by
  have hgraph (hbuilt : ((⟨combiner, ⟨none, traceEdges⟩⟩ : Builder).build program entryPoints
      looks).outcome = .built g st) := graph_eq_of_built hbuilt
  obtain ⟨hwithin, hsame⟩ | ⟨hbeyond, q, herror⟩ :=
    run_limited_cases combiner limit traceEdges program entryPoints looks
  · have hbuild : (⟨combiner, ⟨some limit, traceEdges⟩⟩ : Builder).build program entryPoints looks =
        (⟨combiner, ⟨none, traceEdges⟩⟩ : Builder).build program entryPoints looks := by
      rw [build_eq_report, build_eq_report, hsame]
    rw [hbuild]
    refine ⟨fun hbuilt => ⟨hbuilt, ?_⟩, fun h => h.1⟩
    rw [hgraph hbuilt]
    exact hwithin
  · constructor
    · intro hbuilt
      rw [build_eq_report, herror] at hbuilt
      cases hbuilt
    · rintro ⟨hbuilt, hle⟩
      rw [hgraph hbuilt] at hle
      exact absurd hle (Nat.not_le.2 hbeyond)

/-- Settings only cut a construction short or add to its events.  A limit that
the graph never exceeds without it changes nothing, and the construction comes
to its end.  One that the graph exceeds at some point, even if it fails later
or never ends, is reported as exceeded.  So a graph is built with a limit
exactly when it is built without and is within the limit.  And whatever the
limit, a construction without reports of single edges differs from one with
them only in that its events lack these. -/
theorem build_options :
    (∀ traceEdges,
      let unlimited : Builder := ⟨combiner, ⟨none, traceEdges⟩⟩
      let limited : Builder := ⟨combiner, ⟨some limit, traceEdges⟩⟩
      (¬ unlimited.Exceeds program entryPoints limit →
        (∀ looks, limited.build program entryPoints looks =
          unlimited.build program entryPoints looks) ∧
        ∀ looks, limit < looks → (limited.build program entryPoints looks).outcome ≠ .unfinished) ∧
      (unlimited.Exceeds program entryPoints limit → ∀ looks, limit < looks →
        (limited.build program entryPoints looks).outcome =
          .failed (.nodeLimitExceeded limit)) ∧
      ∀ looks g st, (limited.build program entryPoints looks).outcome = .built g st ↔
        (unlimited.build program entryPoints looks).outcome = .built g st ∧
          g.nodeCount ≤ limit) ∧
    ∀ nodeLimit looks,
      (⟨combiner, ⟨nodeLimit, false⟩⟩ : Builder).build program entryPoints looks =
        ((⟨combiner, ⟨nodeLimit, true⟩⟩ : Builder).build program entryPoints looks).untraced := by
  constructor
  · intro traceEdges unlimited limited
    refine ⟨fun h => ⟨fun looks => ?_, fun looks hlooks => ?_⟩, fun h looks hlooks => ?_,
      fun looks g st => ?_⟩
    · exact build_limited_of_not_exceeds combiner limit traceEdges program entryPoints looks h
    · exact outcome_ne_unfinished_of_limit rfl hlooks
    · exact failed_of_exceeds combiner limit traceEdges program entryPoints looks h hlooks
    · exact built_limited_iff combiner limit traceEdges program entryPoints looks
  · intro nodeLimit looks
    exact build_untraced combiner nodeLimit program entryPoints looks

/-- Two operations that instantiate each other at ever larger types come to
more than two nodes, so a limit of two is exceeded. -/
theorem build_options_mutual_recursion :
    let program := MutualRecursion.program .array
    let entryPoints := [MutualRecursion.operationName "Main"]
    standard.Exceeds program entryPoints 2 ∧
    ∀ looks, 2 < looks → ((⟨Combiner.compose, ⟨some 2, false⟩⟩ : Builder).build program entryPoints
      looks).outcome = .failed (.nodeLimitExceeded 2) := by
  intro program entryPoints
  have hnodes : 2 < (standard.state program entryPoints 2).graph.nodeCount := by decide +kernel
  have hexceeds : standard.Exceeds program entryPoints 2 := exceeds_iff.2 ⟨2, hnodes⟩
  have hlimited := (build_options Combiner.compose 2 program entryPoints).1 false
  exact ⟨hexceeds, hlimited.2.1 hexceeds⟩

end Builder

end CallGraphs
