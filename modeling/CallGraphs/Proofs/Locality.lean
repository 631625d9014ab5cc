import CallGraphs.Proofs.Runs
import CallGraphs.Proofs.Termination

/-!
# CallGraphs.Proofs.Locality

What a construction on demand reads of a program.  Processing a node consults
the callable of the node and those that its body refers to, and nothing else.
If no error comes up, each of them has a node in the graph from then on.  So a
program that declares what is in a built graph in the same way has the same
graph, whatever else it declares.

* `processNode_congr` — what processing a node depends on;
* `exists_mem_nodes_of_consults` — what is consulted gets into the graph;
* `drain_congr` — runs in two programs;
* `build_local` — constructions.
-/

namespace CallGraphs

/-! ## consulted names -/

/-- The names that are looked up when a node is processed: its own, and those
that the body which it stands for refers to. -/
inductive Node.Consults (find? : QualifiedName → Option Callable) (n : Node) :
    QualifiedName → Prop
  | own : Consults find? n n.callable
  | reference {s : Specialization} {resolutions : Substitution} {r : Reference}
      (hs : n.StandsFor find? s resolutions) (hr : r ∈ s.references) : Consults find? n r.name

/-- Processing a reference looks up its name only. -/
theorem Site.emit_congr_find {site : Site} {find? : QualifiedName → Option Callable}
    {name : QualifiedName} (h : find? name = site.find? name) (kinds : List Variant)
    (chain : List Substitution) :
    emit { site with find? := find? } name kinds chain = site.emit name kinds chain := by
  have htarget : target { site with find? := find? } name = site.target name := by
    funext combined
    simp only [target, h]
  rw [emit, emit, htarget]
  rfl

/-- Walking a body looks up the names that it refers to. -/
theorem Walk.body_congr_find (site : Site) {find? : QualifiedName → Option Callable}
    {scope : Scope} (h : ∀ r ∈ scope.references, find? r.name = site.find? r.name) :
    body { site with find? := find? } scope = body site scope := by
  rw [body_eq_forM, body_eq_forM]
  exact forM_eq_of_map_eq (List.map_congr_left fun r hr => Site.emit_congr_find (h r hr) _ _)

namespace Builder

variable {b : Builder} {find? find?' : QualifiedName → Option Callable} {n : Node}
  {s : Specialization} {resolutions : Substitution} {p q : Progress}

/-- Processing a specialization looks up the names that its body refers to. -/
theorem process_congr (h : ∀ r ∈ s.references, find?' r.name = find? r.name) :
    b.process find?' n resolutions s = b.process find? n resolutions s := by
  rw [process, process]
  cases hbody : s.body? with
  | none => rfl
  | some body =>
      have hreferences : s.references = body.references := by
        rw [Specialization.references, hbody, Option.getD_some]
      rw [hreferences] at h
      have hwalk : Walk.body (b.site find?' n resolutions) body =
          Walk.body (b.site find? n resolutions) body :=
        Walk.body_congr_find (b.site find? n resolutions) h
      dsimp only
      rw [hwalk]

/-- Processing a node depends only on what is found under the names that it
consults. -/
theorem processNode_congr (h : ∀ name, n.Consults find? name → find?' name = find? name)
    (p : Progress) : b.processNode find?' n p = b.processNode find? n p := by
  rw [processNode_eq, processNode_eq, h _ .own]
  cases hc : find? n.callable with
  | none => rfl
  | some c =>
      dsimp only
      cases hs : c.template n.kind with
      | error e => rfl
      | ok s =>
          dsimp only
          cases hresolutions : c.instantiate n.typeArguments with
          | error e => rfl
          | ok resolutions =>
              have hstands : n.StandsFor find? s resolutions :=
                ⟨c, hc, template_eq_ok_iff.1 hs, hresolutions⟩
              dsimp only
              rw [process_congr fun r hr => h _ (.reference hstands hr)]

/-! ## consulted names in the graph -/

/-- The references of a specialization that are all resolved lead to nodes of
their names. -/
theorem exists_callee_of_mem_references {r : Reference}
    (herror : (b.emissions find? n resolutions s).error = none) (hr : r ∈ s.references) :
    ∃ e ∈ (b.emissions find? n resolutions s).edges, e.callee.callable = r.name := by
  rw [emissions_eq] at herror ⊢
  obtain ⟨target, htarget⟩ := Site.exists_resolve_of_emissions herror hr
  obtain ⟨kind, hkind⟩ := List.exists_mem_of_ne_nil _ r.variants_ne_nil
  exact ⟨(b.site find? n resolutions).edge r.name target kind,
    (Site.mem_edges_emissions_iff herror).2 ⟨r, hr, target, htarget, kind, hkind, rfl⟩, rfl⟩

/-- Each name that a node consults is that of a node in the graph, once the
node has been processed without an error. -/
theorem exists_mem_nodes_of_consults {name : QualifiedName}
    (h : b.processNode find? n p = .ok () q) (hname : n.Consults find? name) :
    ∃ m ∈ q.graph.nodes, m.callable = name := by
  obtain ⟨s, resolutions, hs, herror, rfl⟩ := processNode_eq_ok h
  rw [Emissions.record, Progress.graph_note]
  cases hname with
  | own =>
      refine ⟨n, Progress.mem_nodes_recordAll.2 (.inl ?_), rfl⟩
      exact CallGraph.mem_nodes_addNode.2 (.inr rfl)
  | reference hs' hr =>
      obtain ⟨rfl, rfl⟩ := standsFor_unique hs hs'
      obtain ⟨e, he, hcallee⟩ := exists_callee_of_mem_references herror hr
      exact ⟨e.callee, Progress.mem_nodes_recordAll.2 (.inr ⟨e, he, .inr rfl⟩), hcallee⟩

/-! ## runs -/

/-- Runs that find the same callables under the names in the graph that one of
them comes to are the same. -/
theorem drain_congr {looks : Nat} {done : Bool} (h : b.drain find? looks p = .ok done q)
    (hsame : ∀ m ∈ q.graph.nodes, find?' m.callable = find? m.callable) :
    b.drain find?' looks p = .ok done q := by
  -- by induction on the looks: what the first node consults is in the graph
  -- after it, and stays there until the end
  induction looks generalizing p with
  | zero => exact h
  | succ looks ih =>
      rw [drain_step] at h ⊢
      cases hpop : p.worklist.pop with
      | none =>
          rw [hpop] at h
          exact h
      | some next =>
          obtain ⟨n, w⟩ := next
          rw [hpop] at h
          dsimp only at h ⊢
          cases hn : b.processNode find? n { p with worklist := w } with
          | error e q' =>
              rw [hn] at h
              cases h
          | ok u q' =>
              rw [hn] at h
              have hpasses := passes_drain b find? looks q'
              dsimp only at h
              rw [Build.after, h] at hpasses
              have hconsults (name : QualifiedName) (hname : n.Consults find? name) :
                  find?' name = find? name := by
                obtain ⟨m, hm, rfl⟩ := exists_mem_nodes_of_consults hn hname
                exact hsame m (hpasses.prefix_nodes.subset hm)
              rw [processNode_congr hconsults, hn]
              exact ih h

/-- So are runs of constructions on demand. -/
theorem run_congr {program program' : Program} {entryPoints : List QualifiedName} {looks : Nat}
    {done : Bool} (hentries : entryPoints ≠ [])
    (h : b.run program entryPoints looks p = .ok done q)
    (hsame : ∀ m ∈ q.graph.nodes, program'.find? m.callable = program.find? m.callable) :
    b.run program' entryPoints looks p = .ok done q := by
  rw [run, if_neg hentries] at h ⊢
  exact drain_congr h hsame

/-! ## constructions -/

/-- Construction on demand depends only on what it reaches.  If a graph is
built for one program, and another program declares the callables in that
graph in the same way, then the same graph is built for that one too, with its
nodes and edges in the same order and with the same figures, and it is built in
the same steps.  What else the other program declares, omits or declares again,
and in which namespaces, does not matter. -/
theorem build_local (b : Builder) (program program' : Program) (entryPoints : List QualifiedName)
    (looks : Nat) (hentries : entryPoints ≠ []) {g : CallGraph} {st : Statistics}
    (hbuilt : (b.build program entryPoints looks).outcome = .built g st)
    (hsame : ∀ n ∈ g.nodes, program'.find? n.callable = program.find? n.callable) :
    let report := b.build program entryPoints looks
    let report' := b.build program' entryPoints looks
    report'.outcome = .built g st ∧ report'.events.tail = report.events.tail ∧
      report'.chains = report.chains := by
  intro report report'
  obtain ⟨q, hrun, rfl, rfl⟩ := run_of_built hbuilt
  have hrun' := run_congr hentries hrun hsame
  have hreport : report = _ := b.build_eq_report program entryPoints looks
  have hreport' : report' = _ := b.build_eq_report program' entryPoints looks
  rw [hreport, hreport', hrun, hrun', if_neg hentries]
  exact ⟨rfl, rfl, rfl⟩

/-- Two operations that call each other have the same graph in a program that
declares them in different namespaces, their entry point twice, and with them
an operation that calls one that is not declared. -/
theorem build_local_mutual_recursion :
    let main := MutualRecursion.operation "Main" []
    let int : Ty := .primitive .int
    let program := MutualRecursion.program id
    let program' : Program :=
      ⟨[⟨"Other",
          [main [],
            MutualRecursion.operation "B" ["U"]
              (MutualRecursion.callBody MutualRecursion.parameterOfA
                (.parameter MutualRecursion.parameterOfB)),
            MutualRecursion.operation "C" []
              (MutualRecursion.callBody ⟨MutualRecursion.operationName "D", "T"⟩ int)]⟩,
        ⟨"Test",
          [MutualRecursion.operation "A" ["T"]
              (MutualRecursion.callBody MutualRecursion.parameterOfB
                (.parameter MutualRecursion.parameterOfA)),
            main (MutualRecursion.callBody MutualRecursion.parameterOfA int)]⟩]⟩
    let entryPoints := [MutualRecursion.operationName "Main"]
    entryPoints ≠ [] ∧ ∃ g st, (standard.build program entryPoints 4).outcome = .built g st ∧
      (∀ n ∈ g.nodes, program'.find? n.callable = program.find? n.callable) ∧
      (standard.build program' entryPoints 4).outcome = .built g st := by
  intro main int program program' entryPoints
  have hentries : entryPoints ≠ [] := List.cons_ne_nil _ _
  have hnodes : (standard.build program entryPoints 4).outcome.graph?.map (·.nodes) =
      some [.entry (MutualRecursion.operationName "Main"), MutualRecursion.instanceAt "A" 0,
        MutualRecursion.instanceAt "B" 0] := by decide +kernel
  obtain ⟨g, st, hbuilt, hnodes⟩ := Outcome.exists_built hnodes
  have hsame : ∀ n ∈ g.nodes, program'.find? n.callable = program.find? n.callable := by
    simp only [hnodes, List.forall_mem_cons, List.not_mem_nil, false_imp_iff, implies_true,
      and_true]
    exact ⟨rfl, rfl, rfl⟩
  exact ⟨hentries, g, st, hbuilt, hsame,
    (build_local standard program program' entryPoints 4 hentries hbuilt hsame).1⟩

end Builder

end CallGraphs
