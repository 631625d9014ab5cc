import CallGraphs.Proofs.Exhaustion
import CallGraphs.Proofs.Insertions

/-!
# CallGraphs.Proofs.Runs

Constructions in either mode: the state in which one begins, the state that
it has come to after a number of looks, and the states in between.

* `build_eq_report` — a construction is the report on its run;
* `run_add` — looks may be taken in two turns;
* `moves_run` — a run changes its state by elementary changes only;
* `Moves.prefix_nodes`, `Passes.prefix_nodes` — the graph only grows.
-/

namespace CallGraphs

namespace Builder

variable {b : Builder} {program : Program} {entryPoints : List QualifiedName} {p q : Progress}
  {looks : Nat} {find? : QualifiedName → Option Callable}

/-! ## runs -/

/-- The state in which a construction begins. -/
def start (entryPoints : List QualifiedName) : Progress :=
  .initial (if entryPoints = [] then .inactive else seeds entryPoints)

/-- What a construction does within a number of looks.  The answer tells
whether it has come to its end. -/
def run (b : Builder) (program : Program) (entryPoints : List QualifiedName) (looks : Nat) :
    Build Bool :=
  if entryPoints = [] then do
    b.exhaust program
    pure true
  else b.drain program.find? looks

/-- The state that a construction has come to after a number of looks, whether
or not it has failed by then. -/
def state (b : Builder) (program : Program) (entryPoints : List QualifiedName) (looks : Nat) :
    Progress :=
  Build.after (b.run program entryPoints looks) (start entryPoints)

/-- A construction is the report on its run. -/
theorem build_eq_report (b : Builder) (program : Program) (entryPoints : List QualifiedName)
    (looks : Nat) :
    b.build program entryPoints looks =
      report (if entryPoints = [] then .exhaustive else .demandDriven)
        (if entryPoints = [] then .exhaustiveStart program.nameCount
          else .demandDrivenStart program.nameCount entryPoints.length)
        (b.run program entryPoints looks (start entryPoints)) := by
  rw [build, run, start]
  by_cases h : entryPoints = []
  · simp only [if_pos h]
    rfl
  · simp only [if_neg h]
    rfl

/-- A construction that ends with a graph has a run that comes to its end with
that graph and its figures. -/
theorem run_of_built {g : CallGraph} {st : Statistics}
    (h : (b.build program entryPoints looks).outcome = .built g st) :
    ∃ q, b.run program entryPoints looks (start entryPoints) = .ok true q ∧ g = q.graph ∧
      st = statistics (if entryPoints = [] then .exhaustive else .demandDriven) q := by
  rw [build_eq_report] at h
  cases hrun : b.run program entryPoints looks (start entryPoints) with
  | error e q =>
      rw [hrun] at h
      cases h
  | ok done q =>
      rw [hrun] at h
      cases done <;> cases h
      exact ⟨q, rfl, rfl, rfl⟩

/-- The graph of a construction that ends with one is that of its state. -/
theorem graph_eq_of_built {g : CallGraph} {st : Statistics}
    (h : (b.build program entryPoints looks).outcome = .built g st) :
    g = (b.state program entryPoints looks).graph := by
  obtain ⟨q, hrun, rfl, -⟩ := run_of_built h
  rw [state, Build.after, hrun]

/-- Looks may be taken in two turns. -/
theorem drain_add (b : Builder) (find? : QualifiedName → Option Callable) (looks more : Nat)
    (p : Progress) :
    b.drain find? (looks + more) p =
      match b.drain find? looks p with
      | .ok false q => b.drain find? more q
      | .ok true q => .ok true q
      | .error e q => .error e q := by
  induction looks generalizing p with
  | zero =>
      rw [Nat.zero_add]
      rfl
  | succ looks ih =>
      rw [Nat.add_right_comm, drain_step, drain_step]
      cases p.worklist.pop with
      | none => rfl
      | some next =>
          obtain ⟨n, w⟩ := next
          dsimp only
          cases b.processNode find? n { p with worklist := w } with
          | error e q => rfl
          | ok u q => exact ih q

theorem run_add (b : Builder) (program : Program) (entryPoints : List QualifiedName)
    (looks more : Nat) (p : Progress) :
    b.run program entryPoints (looks + more) p =
      match b.run program entryPoints looks p with
      | .ok false q => b.run program entryPoints more q
      | .ok true q => .ok true q
      | .error e q => .error e q := by
  rw [run, run, run]
  by_cases h : entryPoints = []
  · simp only [if_pos h]
    rw [bind_apply]
    cases b.exhaust program p <;> rfl
  · simp only [if_neg h]
    exact b.drain_add program.find? looks more p

/-! ## exhaustive runs -/

/-- An elementary change of an exhaustive construction. -/
inductive SweepStep (b : Builder) (program : Program) : Progress → Progress → Prop
  /-- An edge that a declared specialization emits is stored. -/
  | store {p : Progress} {c : Callable} {s : Specialization} {e : Edge}
      (hs : (c, s) ∈ program.specializations) (he : e ∈ (b.declared program c s).edges) :
      SweepStep b program p (p.store b.options.traceEdges e)
  /-- The callee of a stored edge is offered to the worklist. -/
  | offer {p : Progress} {e : Edge} (h : e ∈ p.graph.edges) : SweepStep b program p (p.offer e.callee)
  /-- Something else is noted. -/
  | note {p q : Progress} (hgraph : q.graph = p.graph) (hworklist : q.worklist = p.worklist) :
      SweepStep b program p q

/-- The edges of a declared specialization are recorded. -/
theorem SweepStep.records {c : Callable} {s : Specialization}
    (hs : (c, s) ∈ program.specializations) :
    Records b.options.traceEdges (b.SweepStep program) (fun _ => True)
      (· ∈ (b.declared program c s).edges) where
  store _ he := .store hs he
  offer he := .offer he
  note := .note rfl rfl
  keeps _ h := h

/-- Processing a specialization where it is declared. -/
theorem reflTransGen_processDeclared {c : Callable} {s : Specialization}
    (hs : (c, s) ∈ program.specializations) (p : Progress) :
    Relation.ReflTransGen (b.SweepStep program) p (Build.after (b.processDeclared program c s) p) := by
  have hrecords := SweepStep.records (b := b) hs
  rw [declared] at hrecords
  rw [processDeclared]
  cases hresolutions : c.instantiate s.typeArguments with
  | error e => exact .refl
  | ok resolutions =>
      rw [hresolutions] at hrecords
      obtain ⟨events, hwalk⟩ := hrecords.process (p := p) (fun _ => trivial) fun _ he => he
      have hcount : b.SweepStep program p { p with processed := p.processed + 1, events := events } :=
        .note rfl rfl
      exact .head hcount hwalk

/-- Processing several specializations. -/
theorem reflTransGen_forM_processDeclared {xs : List (Callable × Specialization)}
    (hxs : ∀ x ∈ xs, x ∈ program.specializations) (p : Progress) :
    Relation.ReflTransGen (b.SweepStep program) p
      (Build.after (forM xs fun x => b.processDeclared program x.1 x.2) p) := by
  induction xs generalizing p with
  | nil => exact .refl
  | cons x xs ih =>
      obtain ⟨hx, hrest⟩ := List.forall_mem_cons.1 hxs
      rw [List.forM_cons]
      exact reflTransGen_bind (reflTransGen_processDeclared hx p) fun _ q _ => ih hrest q

/-! ## the states of a run -/

/-- An elementary change of a construction, by its mode. -/
def Change (b : Builder) (program : Program) (entryPoints : List QualifiedName) :
    Progress → Progress → Prop :=
  if entryPoints = [] then b.SweepStep program else b.Step program.find?

/-- A construction moves from one state to another by elementary changes. -/
def Moves (b : Builder) (program : Program) (entryPoints : List QualifiedName) :
    Progress → Progress → Prop :=
  Relation.ReflTransGen (b.Change program entryPoints)

/-- A run moves from the state in which it begins to the one that it comes
to. -/
theorem moves_after (b : Builder) (program : Program) (entryPoints : List QualifiedName)
    (looks : Nat) (p : Progress) :
    b.Moves program entryPoints p (Build.after (b.run program entryPoints looks) p) := by
  rw [Moves, Change, run]
  by_cases h : entryPoints = []
  · rw [if_pos h, if_pos h, exhaust_eq_forM]
    exact reflTransGen_bind (reflTransGen_forM_processDeclared (fun _ hx => hx) _) fun _ _ _ => .refl
  · rw [if_neg h, if_neg h]
    exact passes_drain b program.find? looks p

theorem moves_run (b : Builder) (program : Program) (entryPoints : List QualifiedName)
    (looks : Nat) :
    b.Moves program entryPoints (start entryPoints) (b.state program entryPoints looks) :=
  b.moves_after program entryPoints looks (start entryPoints)

/-- With more looks it moves on. -/
theorem moves_state (b : Builder) (program : Program) (entryPoints : List QualifiedName)
    {looks more : Nat} (h : looks ≤ more) :
    b.Moves program entryPoints (b.state program entryPoints looks)
      (b.state program entryPoints more) := by
  obtain ⟨rest, rfl⟩ := Nat.exists_eq_add_of_le h
  rw [state, state, Build.after, Build.after, run_add]
  cases b.run program entryPoints looks (start entryPoints) with
  | error e q => exact .refl
  | ok done q =>
      cases done with
      | true => exact .refl
      | false => exact b.moves_after program entryPoints rest q

/-- A run that has ended stays as it is. -/
theorem run_eq_of_ended {looks more : Nat}
    (hended : ∀ q, b.run program entryPoints looks (start entryPoints) ≠ .ok false q)
    (h : looks ≤ more) :
    b.run program entryPoints more (start entryPoints) =
      b.run program entryPoints looks (start entryPoints) := by
  obtain ⟨rest, rfl⟩ := Nat.exists_eq_add_of_le h
  rw [run_add]
  cases hrun : b.run program entryPoints looks (start entryPoints) with
  | error e q => rfl
  | ok done q =>
      cases done with
      | true => rfl
      | false => exact absurd hrun (hended q)

/-- What the elementary changes of a mode keep holds of every state that a
construction moves to. -/
theorem Moves.keeps {I : Progress → Prop} (h : b.Moves program entryPoints p q)
    (hstep : ∀ {p q}, b.Step program.find? p q → I p → I q)
    (hsweep : ∀ {p q}, b.SweepStep program p q → I p → I q) (hp : I p) : I q := by
  induction h with
  | refl => exact hp
  | tail _ hlast ih =>
      rw [Change] at hlast
      split at hlast
      · exact hsweep hlast ih
      · exact hstep hlast ih

/-- The graph only grows. -/
theorem Step.prefix_nodes (h : b.Step find? p q) : p.graph.nodes <+: q.graph.nodes := by
  cases h with
  | take => exact List.prefix_rfl
  | enter => exact CallGraph.prefix_addNode _ _
  | store => exact CallGraph.prefix_addDependency _ _
  | offer => exact List.prefix_rfl
  | note hgraph => rw [hgraph]

theorem SweepStep.prefix_nodes (h : b.SweepStep program p q) :
    p.graph.nodes <+: q.graph.nodes := by
  cases h with
  | store => exact CallGraph.prefix_addDependency _ _
  | offer => exact List.prefix_rfl
  | note hgraph => rw [hgraph]

theorem Moves.prefix_nodes (h : b.Moves program entryPoints p q) :
    p.graph.nodes <+: q.graph.nodes :=
  h.keeps (I := fun q => p.graph.nodes <+: q.graph.nodes)
    (fun hstep hp => hp.trans hstep.prefix_nodes) (fun hstep hp => hp.trans hstep.prefix_nodes)
    List.prefix_rfl

theorem Passes.prefix_nodes (h : b.Passes find? p q) : p.graph.nodes <+: q.graph.nodes := by
  induction h with
  | refl => exact List.prefix_rfl
  | tail _ hstep ih => exact ih.trans (Step.prefix_nodes hstep)

end Builder

end CallGraphs
