import CallGraphs.Proofs.Declarations
import CallGraphs.Proofs.Passing

/-!
# CallGraphs.Proofs.Exhaustion

Exhaustive construction without a limit.  Every specialization is processed
once, in program order, and what it emits does not depend on what was
recorded before.  So the construction fails with the first specialization
that fails alone, and else collects what all of them emit alone.

* `processDeclared_apply` — one specialization;
* `forM_processDeclared_ok`, `forM_processDeclared_error` — several ones;
* `declared_congr` — what is emitted depends on signatures only;
* `build_exhausts` — the outcome of an exhaustive construction.
-/

namespace CallGraphs

/-- The node of a specialization where it is declared. -/
def Specialization.node (s : Specialization) (c : Callable) : Node :=
  ⟨c.name, s.kind, s.typeArguments⟩

/-- Callables of the same signature are instantiated in the same way. -/
theorem Callable.instantiate_congr {c d : Callable} (h : d.signature = c.signature)
    (typeArguments : Option (List Ty)) :
    d.instantiate typeArguments = c.instantiate typeArguments := by
  obtain ⟨hname, hparameters⟩ := Prod.mk.inj h
  cases typeArguments with
  | none => rfl
  | some types =>
      simp only [Callable.instantiate, Callable.parameters_eq_of_signature h, hname, hparameters]

/-- Type arguments instantiate a callable if there are none or as many as it
has parameters. -/
theorem Callable.exists_instantiate_iff {c : Callable} {typeArguments : Option (List Ty)} :
    (∃ resolutions, c.instantiate typeArguments = .ok resolutions) ↔
      ∀ types, typeArguments = some types → types.length = c.typeParameters.length := by
  cases typeArguments with
  | none => simp [Callable.instantiate]
  | some types => by_cases h : types.length = c.typeParameters.length <;>
      simp [Callable.instantiate, h]

namespace Builder

variable {b : Builder} {program program' : Program} {c d : Callable} {s : Specialization}
  {resolutions : Substitution} {p q : Progress} {e : Edge} {err : BuildError}

/-! ## one specialization -/

/-- A specialization succeeds alone if its type arguments fit its callable
and a walk of its body, if it has one, meets no error. -/
def SucceedsAlone (b : Builder) (program : Program) (c : Callable) (s : Specialization) : Prop :=
  (∀ types, s.typeArguments = some types → types.length = c.typeParameters.length) ∧
    ∀ resolutions body, c.instantiate s.typeArguments = .ok resolutions → s.body? = some body →
      ∃ q, Walk.body (b.site program.find? (s.node c) resolutions) body (.initial .inactive) =
        .ok () q

/-- A specialization fails alone if its type arguments do not fit its
callable, or else if a walk of its body meets an error. -/
def FailsAlone (b : Builder) (program : Program) (c : Callable) (s : Specialization)
    (err : BuildError) : Prop :=
  c.instantiate s.typeArguments = .error err ∨
    ∃ resolutions body q, c.instantiate s.typeArguments = .ok resolutions ∧ s.body? = some body ∧
      Walk.body (b.site program.find? (s.node c) resolutions) body (.initial .inactive) =
        .error err q

/-- A specialization emits an edge alone if a walk of its body records it. -/
def EmitsAlone (b : Builder) (program : Program) (c : Callable) (s : Specialization)
    (e : Edge) : Prop :=
  ∃ resolutions body, c.instantiate s.typeArguments = .ok resolutions ∧ s.body? = some body ∧
    e ∈ (Build.after (Walk.body (b.site program.find? (s.node c) resolutions) body)
      (.initial .inactive)).graph.edges

/-- What a specialization emits where it is declared. -/
def declared (b : Builder) (program : Program) (c : Callable) (s : Specialization) : Emissions :=
  match c.instantiate s.typeArguments with
  | .error err => ⟨[], [], some err⟩
  | .ok resolutions => b.emissions program.find? (s.node c) resolutions s

theorem succeedsAlone_iff (hlimit : b.options.nodeLimit = none) :
    b.SucceedsAlone program c s ↔ (b.declared program c s).error = none := by
  rw [SucceedsAlone, ← Callable.exists_instantiate_iff, declared]
  cases c.instantiate s.typeArguments with
  | error err => simp
  | ok resolutions =>
      dsimp only
      rw [emissions]
      cases s.body? with
      | none => simp
      | some body => simpa using body_ok_iff hlimit body

theorem failsAlone_iff (hlimit : b.options.nodeLimit = none) :
    b.FailsAlone program c s err ↔ (b.declared program c s).error = some err := by
  rw [FailsAlone, declared]
  cases c.instantiate s.typeArguments with
  | error err' => simp
  | ok resolutions =>
      dsimp only
      rw [emissions]
      cases s.body? with
      | none => simp
      | some body =>
          simp only [reduceCtorEq, false_or, Except.ok.injEq, Option.some.injEq,
            exists_and_left, exists_eq_left']
          rw [body_apply hlimit, Emissions.run]
          cases ((b.site program.find? (s.node c) resolutions).emissions
            body.references).error <;> simp

theorem emitsAlone_iff (hlimit : b.options.nodeLimit = none) :
    b.EmitsAlone program c s e ↔ e ∈ (b.declared program c s).edges := by
  rw [EmitsAlone, declared]
  cases c.instantiate s.typeArguments with
  | error err => simp
  | ok resolutions =>
      dsimp only
      rw [emissions]
      cases s.body? with
      | none => simp
      | some body => simpa using mem_edges_body_iff hlimit body

/-! ## several specializations -/

/-- What a construction gains when specializations are processed where they
are declared: their edges and the ends of these. -/
structure Collects (b : Builder) (program : Program) (xs : List (Callable × Specialization))
    (p q : Progress) : Prop where
  edges : ∀ e, e ∈ q.graph.edges ↔
    e ∈ p.graph.edges ∨ ∃ x ∈ xs, e ∈ (b.declared program x.1 x.2).edges
  nodes : ∀ n, n ∈ q.graph.nodes ↔
    n ∈ p.graph.nodes ∨
      ∃ x ∈ xs, ∃ e ∈ (b.declared program x.1 x.2).edges, n = e.caller ∨ n = e.callee
  processed : q.processed = p.processed + xs.length

theorem Collects.refl (b : Builder) (program : Program) (p : Progress) :
    b.Collects program [] p p :=
  ⟨by simp, by simp, rfl⟩

theorem Collects.trans {xs ys : List (Callable × Specialization)} {r : Progress}
    (h : b.Collects program xs p q) (h' : b.Collects program ys q r) :
    b.Collects program (xs ++ ys) p r := by
  refine ⟨fun e => ?_, fun n => ?_, ?_⟩
  · rw [h'.edges, h.edges]
    simp only [List.mem_append, or_assoc, or_and_right, exists_or]
  · rw [h'.nodes, h.nodes]
    simp only [List.mem_append, or_assoc, or_and_right, exists_or]
  · rw [h'.processed, h.processed, List.length_append, Nat.add_assoc]

/-- Processing a specialization where it is declared fails if and as it fails
alone, and else collects what it emits. -/
theorem processDeclared_apply (hlimit : b.options.nodeLimit = none) (c : Callable)
    (s : Specialization) (p : Progress) :
    ∃ q, (b.processDeclared program c s p =
        match (b.declared program c s).error with
        | none => .ok () q
        | some err => .error err q) ∧
      ((b.declared program c s).error = none → b.Collects program [(c, s)] p q) := by
  rw [processDeclared, bind_apply, ofExcept_apply]
  cases hresolutions : c.instantiate s.typeArguments with
  | error err =>
      have hdeclared : b.declared program c s = ⟨[], [], some err⟩ := by
        rw [declared, hresolutions]
      rw [hdeclared]
      exact ⟨p, rfl, fun h => by cases h⟩
  | ok resolutions =>
      have hdeclared : b.declared program c s =
          b.emissions program.find? (s.node c) resolutions s := by
        rw [declared, hresolutions]
      have hprocess := @process_apply b program.find? (s.node c) resolutions hlimit s p
      rw [← hdeclared, Emissions.run] at hprocess
      refine ⟨_, hprocess, fun _ => ⟨fun e => ?_, fun n => ?_, Progress.processed_recordAll⟩⟩
      · rw [Emissions.record, Progress.graph_note, Progress.mem_edges_recordAll]
        simp
      · rw [Emissions.record, Progress.graph_note, Progress.mem_nodes_recordAll]
        simp

/-- Specializations that succeed alone are all processed. -/
theorem forM_processDeclared_ok (hlimit : b.options.nodeLimit = none)
    {xs : List (Callable × Specialization)}
    (h : ∀ x ∈ xs, (b.declared program x.1 x.2).error = none) (p : Progress) :
    ∃ q, (forM xs fun x => b.processDeclared program x.1 x.2) p = .ok () q ∧
      b.Collects program xs p q := by
  induction xs generalizing p with
  | nil => exact ⟨p, rfl, .refl b program p⟩
  | cons x xs ih =>
      obtain ⟨hfirst, hrest⟩ := List.forall_mem_cons.1 h
      obtain ⟨q, hq, hcollects⟩ := processDeclared_apply hlimit x.1 x.2 p
      obtain ⟨r, hr, hcollects'⟩ := ih hrest q
      refine ⟨r, ?_, (hcollects hfirst).trans hcollects'⟩
      rw [List.forM_cons, bind_apply, hq, hfirst]
      exact hr

/-- The first one that fails alone ends the construction. -/
theorem forM_processDeclared_error (hlimit : b.options.nodeLimit = none)
    {before : List (Callable × Specialization)} {x : Callable × Specialization}
    (h : ∀ y ∈ before, (b.declared program y.1 y.2).error = none)
    (hx : (b.declared program x.1 x.2).error = some err)
    (after : List (Callable × Specialization)) (p : Progress) :
    ∃ q, (forM (before ++ x :: after) fun y => b.processDeclared program y.1 y.2) p =
      .error err q := by
  obtain ⟨q, hq, -⟩ := forM_processDeclared_ok hlimit h p
  obtain ⟨r, hr, -⟩ := processDeclared_apply hlimit x.1 x.2 q
  refine ⟨r, ?_⟩
  rw [List.forM_append, bind_apply, hq]
  dsimp only
  rw [List.forM_cons, bind_apply, hr, hx]

/-- Either all specializations succeed alone, or there is a first one that
does not. -/
theorem declared_cases (b : Builder) (program : Program)
    (xs : List (Callable × Specialization)) :
    (∀ x ∈ xs, (b.declared program x.1 x.2).error = none) ∨
    ∃ before x after err, xs = before ++ x :: after ∧
      (∀ y ∈ before, (b.declared program y.1 y.2).error = none) ∧
      (b.declared program x.1 x.2).error = some err := by
  induction xs with
  | nil => exact .inl (by simp)
  | cons x xs ih =>
      cases hx : (b.declared program x.1 x.2).error with
      | some err => exact .inr ⟨[], x, xs, err, rfl, by simp, hx⟩
      | none =>
          obtain hall | ⟨before, y, after, err, rfl, hbefore, hy⟩ := ih
          · exact .inl (List.forall_mem_cons.2 ⟨hx, hall⟩)
          · exact .inr ⟨x :: before, y, after, err, rfl,
              List.forall_mem_cons.2 ⟨hx, hbefore⟩, hy⟩

/-! ## constructions -/

/-- An exhaustive construction processes the specializations in program
order. -/
theorem exhaust_eq_forM (b : Builder) (program : Program) :
    b.exhaust program =
      forM program.specializations fun x => b.processDeclared program x.1 x.2 := by
  rw [exhaust, Program.specializations]
  induction program.callables with
  | nil => rfl
  | cons c cs ih =>
      rw [List.flatMap_cons, List.forM_append, ← ih, List.forM_map]
      rfl

/-- How an exhaustive construction ends. -/
theorem build_nil_outcome (b : Builder) (program : Program) (looks : Nat) :
    (b.build program [] looks).outcome =
      match (forM program.specializations fun x => b.processDeclared program x.1 x.2 : Build Unit)
        (.initial .inactive) with
      | .ok _ q => .built q.graph (statistics .exhaustive q)
      | .error e _ => .failed e := by
  rw [build, if_pos rfl, ← exhaust_eq_forM]
  show (report .exhaustive _ ((b.exhaust program >>= fun _ => pure true : Build Bool)
    (.initial .inactive))).outcome = _
  rw [bind_apply]
  cases b.exhaust program (.initial .inactive) <;> rfl

/-- An exhaustive construction succeeds if all specializations succeed alone,
and collects what they emit. -/
theorem exists_built (hlimit : b.options.nodeLimit = none) (looks : Nat)
    (h : ∀ x ∈ program.specializations, (b.declared program x.1 x.2).error = none) :
    ∃ q, (b.build program [] looks).outcome = .built q.graph (statistics .exhaustive q) ∧
      b.Collects program program.specializations (.initial .inactive) q := by
  obtain ⟨q, hq, hcollects⟩ := forM_processDeclared_ok hlimit h (.initial .inactive)
  refine ⟨q, ?_, hcollects⟩
  rw [build_nil_outcome, hq]

/-- An exhaustive construction fails with the first specialization that fails
alone. -/
theorem failed_of_declared (hlimit : b.options.nodeLimit = none) (looks : Nat)
    {before after : List (Callable × Specialization)} {x : Callable × Specialization}
    (hsplit : program.specializations = before ++ x :: after)
    (h : ∀ y ∈ before, (b.declared program y.1 y.2).error = none)
    (hx : (b.declared program x.1 x.2).error = some err) :
    (b.build program [] looks).outcome = .failed err := by
  obtain ⟨q, hq⟩ := forM_processDeclared_error hlimit h hx after (.initial .inactive)
  rw [build_nil_outcome, hsplit, hq]

/-- So it succeeds exactly if all specializations succeed alone. -/
theorem built_iff (hlimit : b.options.nodeLimit = none) (looks : Nat) :
    (∃ g st, (b.build program [] looks).outcome = .built g st) ↔
      ∀ x ∈ program.specializations, (b.declared program x.1 x.2).error = none := by
  obtain hall | ⟨before, x, after, err, hsplit, hbefore, hx⟩ :=
    b.declared_cases program program.specializations
  · obtain ⟨q, hq, -⟩ := exists_built hlimit looks hall
    exact iff_of_true ⟨_, _, hq⟩ hall
  · refine iff_of_false ?_ fun hall => ?_
    · rintro ⟨g, st, hg⟩
      rw [failed_of_declared hlimit looks hsplit hbefore hx] at hg
      cases hg
    · rw [hall x (by simp [hsplit])] at hx
      cases hx

/-- What is known of a graph that is built exhaustively. -/
theorem collects_of_built (hlimit : b.options.nodeLimit = none) {looks : Nat} {g : CallGraph}
    {st : Statistics} (h : (b.build program [] looks).outcome = .built g st) :
    ∃ q, b.Collects program program.specializations (.initial .inactive) q ∧ g = q.graph ∧
      st = statistics .exhaustive q := by
  obtain ⟨q, hq, hcollects⟩ := exists_built hlimit looks ((built_iff hlimit looks).1 ⟨g, st, h⟩)
  rw [h] at hq
  cases hq
  exact ⟨q, hcollects, rfl, rfl⟩

/-! ## the order of declarations -/

/-- What a specialization emits depends on the signatures of callables
only. -/
theorem declared_congr (h : program.DeclaresSame program') (hsignature : d.signature = c.signature)
    (s : Specialization) : b.declared program' d s = b.declared program c s := by
  have hnode : s.node d = s.node c := by
    rw [Specialization.node, Specialization.node, (Prod.mk.inj hsignature).1]
  rw [declared, declared, Callable.instantiate_congr hsignature, hnode]
  cases c.instantiate s.typeArguments with
  | error err => rfl
  | ok resolutions =>
      dsimp only
      rw [emissions_eq, emissions_eq]
      exact Site.emissions_congr rfl rfl rfl fun r _ => h.find r.name

/-- What is declared in one program has a match in the other one. -/
theorem exists_declared_eq (b : Builder) (h : program.DeclaresSame program')
    {x : Callable × Specialization} (hx : x ∈ program.specializations) :
    ∃ y ∈ program'.specializations, b.declared program' y.1 y.2 = b.declared program x.1 x.2 := by
  obtain ⟨d, hd, hmem⟩ := (h.specializations x.1.signature x.2).1 ⟨x.1, rfl, hx⟩
  exact ⟨(d, x.2), hmem, declared_congr h hd x.2⟩

/-- Programs that declare the same emit the same. -/
theorem exists_declared_iff (b : Builder) (h : program.DeclaresSame program')
    (P : Emissions → Prop) :
    (∃ y ∈ program'.specializations, P (b.declared program' y.1 y.2)) ↔
      ∃ x ∈ program.specializations, P (b.declared program x.1 x.2) := by
  constructor
  · rintro ⟨y, hy, hP⟩
    obtain ⟨x, hx, heq⟩ := b.exists_declared_eq h.symm hy
    exact ⟨x, hx, heq ▸ hP⟩
  · rintro ⟨x, hx, hP⟩
    obtain ⟨y, hy, heq⟩ := b.exists_declared_eq h hx
    exact ⟨y, hy, heq ▸ hP⟩

/-- Programs that declare the same are both built or both refused. -/
theorem built_iff_of_declaresSame (hlimit : b.options.nodeLimit = none)
    (h : program.DeclaresSame program') (looks : Nat) :
    (∃ g st, (b.build program' [] looks).outcome = .built g st) ↔
      ∃ g st, (b.build program [] looks).outcome = .built g st := by
  have hfaults := b.exists_declared_iff h fun emissions => emissions.error ≠ none
  rw [built_iff hlimit, built_iff hlimit]
  simpa using not_congr hfaults

/-- Programs that declare the same have the same graph. -/
theorem mem_graph_iff_of_declaresSame (hlimit : b.options.nodeLimit = none)
    (h : program.DeclaresSame program') {looks : Nat} {g g' : CallGraph} {st st' : Statistics}
    (hg : (b.build program [] looks).outcome = .built g st)
    (hg' : (b.build program' [] looks).outcome = .built g' st') :
    (∀ n, n ∈ g'.nodes ↔ n ∈ g.nodes) ∧ ∀ e, e ∈ g'.edges ↔ e ∈ g.edges := by
  obtain ⟨q, hq, rfl, -⟩ := collects_of_built hlimit hg
  obtain ⟨q', hq', rfl, -⟩ := collects_of_built hlimit hg'
  constructor
  · intro n
    rw [hq.nodes, hq'.nodes]
    exact or_congr_right
      (b.exists_declared_iff h fun emissions => ∃ e ∈ emissions.edges, n = e.caller ∨ n = e.callee)
  · intro e
    rw [hq.edges, hq'.edges]
    exact or_congr_right (b.exists_declared_iff h fun emissions => e ∈ emissions.edges)

/-! ## outcomes -/

/-- Exhaustive construction is exact.  Without a limit it succeeds exactly
when every specialization of every declared callable succeeds alone, and else
fails with the error of the first one that does not.  Its edges are those
that the specializations emit alone, each of them once; every node is an end
of an edge; and every specialization counts as processed.  For distinct names
neither success nor the graph depends on the order of the namespaces, of the
callables in them or of the specializations of these. -/
theorem build_exhausts (b : Builder) (program : Program) (looks : Nat)
    (hlimit : b.options.nodeLimit = none) :
    let outcome (program : Program) := (b.build program [] looks).outcome
    ((∃ g st, outcome program = .built g st) ↔
      ∀ x ∈ program.specializations, b.SucceedsAlone program x.1 x.2) ∧
    ((¬ ∃ g st, outcome program = .built g st) →
      ∃ before x after err, program.specializations = before ++ x :: after ∧
        (∀ y ∈ before, b.SucceedsAlone program y.1 y.2) ∧ b.FailsAlone program x.1 x.2 err ∧
        outcome program = .failed err) ∧
    (∀ g st, outcome program = .built g st →
      (∀ e, e ∈ g.edges ↔ ∃ x ∈ program.specializations, b.EmitsAlone program x.1 x.2 e) ∧
      g.edges.Nodup ∧ (∀ n ∈ g.nodes, ∃ e ∈ g.edges, n = e.caller ∨ n = e.callee) ∧
      st.processed = program.specializations.length) ∧
    ∀ program', program.Distinct → program.Permuted program' →
      ((∃ g st, outcome program' = .built g st) ↔ ∃ g st, outcome program = .built g st) ∧
      ∀ g st g' st', outcome program = .built g st → outcome program' = .built g' st' →
        (∀ n, n ∈ g'.nodes ↔ n ∈ g.nodes) ∧ ∀ e, e ∈ g'.edges ↔ e ∈ g.edges := by
  intro outcome
  simp only [succeedsAlone_iff hlimit, failsAlone_iff hlimit, emitsAlone_iff hlimit]
  refine ⟨built_iff hlimit looks, fun h => ?_, fun g st h => ?_, fun program' hdistinct hperm => ?_⟩
  · obtain hall | ⟨before, x, after, err, hsplit, hbefore, hx⟩ :=
      b.declared_cases program program.specializations
    · exact absurd ((built_iff hlimit looks).2 hall) h
    · exact ⟨before, x, after, err, hsplit, hbefore, hx,
        failed_of_declared hlimit looks hsplit hbefore hx⟩
  · obtain ⟨q, hq, rfl, rfl⟩ := collects_of_built hlimit h
    have hedges (e : Edge) : e ∈ q.graph.edges ↔
        ∃ x ∈ program.specializations, e ∈ (b.declared program x.1 x.2).edges := by
      simpa [Progress.initial] using hq.edges e
    refine ⟨hedges, q.graph.edges_nodup, fun n hn => ?_, ?_⟩
    · obtain hn | ⟨x, hx, e, he, hend⟩ := (hq.nodes n).1 hn
      · exact absurd hn List.not_mem_nil
      · exact ⟨e, (hedges e).2 ⟨x, hx, he⟩, hend⟩
    · simpa [statistics, Progress.initial] using hq.processed
  · have hsame := hperm.declaresSame hdistinct
    exact ⟨built_iff_of_declaresSame hlimit hsame looks,
      fun _ _ _ _ => mem_graph_iff_of_declaresSame hlimit hsame⟩

/-- Two operations that call each other may be declared in either order. -/
theorem build_exhausts_reordered :
    let name (s : String) : QualifiedName := ⟨"Test", s⟩
    let reference (s : String) : Expression := ⟨.identifier (.callable (name s)), .missing, ∅⟩
    let operation (s callee : String) : Callable :=
      ⟨name s, .operation, [], [⟨.body, none, .provided
        [.expression ⟨.call (reference callee) ⟨.literal .unit, .missing, ∅⟩, .missing, ∅⟩]⟩]⟩
    let program : Program := ⟨[⟨"Test", [operation "F" "G", operation "G" "F"]⟩]⟩
    let program' : Program := ⟨[⟨"Test", [operation "G" "F", operation "F" "G"]⟩]⟩
    standard.options.nodeLimit = none ∧ program.Distinct ∧ program.Permuted program' ∧
    ∃ g st g' st', (standard.build program [] 0).outcome = .built g st ∧
      (standard.build program' [] 0).outcome = .built g' st' ∧
      g.nodes = [.entry (name "F"), .entry (name "G")] ∧
      g'.nodes = [.entry (name "G"), .entry (name "F")] ∧
      (∀ e, e ∈ g'.edges ↔ e ∈ g.edges) ∧ st.processed = program.specializations.length := by
  intro name reference operation program program'
  have hdistinct : program.Distinct := by
    rw [Program.Distinct]
    decide
  have hperm : program.Permuted program' :=
    ⟨program.namespaces, .refl _, .cons ⟨rfl, _, .swap _ _ [],
      .cons ⟨rfl, rfl, rfl, .refl _⟩ (.cons ⟨rfl, rfl, rfl, .refl _⟩ .nil)⟩ .nil⟩
  have hnodes : (standard.build program [] 0).outcome.graph?.map (·.nodes) =
      some [.entry (name "F"), .entry (name "G")] := by decide +kernel
  have hnodes' : (standard.build program' [] 0).outcome.graph?.map (·.nodes) =
      some [.entry (name "G"), .entry (name "F")] := by decide +kernel
  obtain ⟨g, st, hg, hnodes⟩ := Outcome.exists_built hnodes
  obtain ⟨g', st', hg', hnodes'⟩ := Outcome.exists_built hnodes'
  obtain ⟨-, -, hbuilt, hsame⟩ := build_exhausts standard program 0 rfl
  exact ⟨rfl, hdistinct, hperm, g, st, g', st', hg, hg', hnodes, hnodes',
    ((hsame program' hdistinct hperm).2 g st g' st' hg hg').2, (hbuilt g st hg).2.2.2⟩

end Builder

end CallGraphs
