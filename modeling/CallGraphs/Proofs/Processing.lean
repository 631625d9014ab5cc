import CallGraphs.Build.Builder
import CallGraphs.Proofs.Emissions

/-!
# CallGraphs.Proofs.Processing

What a node is good for, and what processing it does to a construction
without a limit.  Whether a node is good and which dependencies it emits is
told by a walk of its body alone: on the empty graph, without a worklist.

* `processNode_cases` — a node is refused or processed;
* `processNode_ok_iff` — a node is processed without an error exactly when it is good;
* `processNode_grows` — what a construction gains by that.
-/

namespace CallGraphs

/-! ## nodes -/

/-- A node stands for a specialization at a substitution: its callable is
declared, this is the only specialization of its variant without type
arguments, and its type arguments fit the declared parameters. -/
def Node.StandsFor (find? : QualifiedName → Option Callable) (n : Node) (s : Specialization)
    (resolutions : Substitution) : Prop :=
  ∃ c, find? n.callable = some c ∧ c.templates n.kind = [s] ∧
    c.instantiate n.typeArguments = .ok resolutions

/-- The errors with which a node is refused before its body is looked at. -/
inductive Node.Refused (find? : QualifiedName → Option Callable) (n : Node) : BuildError → Prop
  /-- Its callable is not declared. -/
  | undeclared (h : find? n.callable = none) :
      Refused find? n (.undeclaredCallable n.callable.text)
  /-- Its variant has no template or several. -/
  | template {c : Callable} {e : BuildError} (hc : find? n.callable = some c)
      (h : c.template n.kind = .error e) : Refused find? n e
  /-- Its type arguments do not fit. -/
  | arguments {c : Callable} {e : BuildError} (hc : find? n.callable = some c)
      (h : c.instantiate n.typeArguments = .error e) : Refused find? n e

/-- The references in the body of a specialization, if it has one. -/
def Specialization.references (s : Specialization) : List Reference :=
  (s.body?.getD []).references

/-- What is reported when a specialization is processed for a node: that its
body is walked while so many nodes are pending, or that it has none. -/
def Specialization.visit (s : Specialization) (n : Node) (pending : Nat) : Event :=
  match s.body? with
  | none => .bodyless n
  | some _ => .walking n pending

namespace Builder

variable {b : Builder} {find? : QualifiedName → Option Callable} {n m : Node}
  {s : Specialization} {resolutions r : Substitution} {p q : Progress}

/-- A node is good if it stands for a specialization whose body, if there is
one, is walked without an error. -/
def Good (b : Builder) (find? : QualifiedName → Option Callable) (n : Node) : Prop :=
  ∃ s resolutions, n.StandsFor find? s resolutions ∧ ∀ body, s.body? = some body →
    ∃ q, Walk.body (b.site find? n resolutions) body (.initial .inactive) = .ok () q

/-- A node emits a dependency on `m` if a walk of its body records one. -/
def Emits (b : Builder) (find? : QualifiedName → Option Callable) (n m : Node)
    (r : Substitution) : Prop :=
  ∃ s resolutions body, n.StandsFor find? s resolutions ∧ s.body? = some body ∧
    ⟨n, m, r⟩ ∈ (Build.after (Walk.body (b.site find? n resolutions) body)
      (.initial .inactive)).graph.edges

/-- What the body of a specialization emits, if it has one. -/
def emissions (b : Builder) (find? : QualifiedName → Option Callable) (n : Node)
    (resolutions : Substitution) (s : Specialization) : Emissions :=
  match s.body? with
  | none => ⟨[], [], none⟩
  | some body => (b.site find? n resolutions).emissions body.references

/-- A node stands for one specialization only. -/
theorem standsFor_unique {s' : Specialization} {resolutions' : Substitution}
    (h : n.StandsFor find? s resolutions) (h' : n.StandsFor find? s' resolutions') :
    s' = s ∧ resolutions' = resolutions := by
  obtain ⟨c, hc, hs, hresolutions⟩ := h
  obtain ⟨c', hc', hs', hresolutions'⟩ := h'
  obtain rfl : c = c' := Option.some.inj (hc.symm.trans hc')
  rw [hs] at hs'
  rw [hresolutions] at hresolutions'
  exact ⟨(List.cons.inj hs').1.symm, (Except.ok.inj hresolutions').symm⟩

/-- A walk alone ends as it does within a construction. -/
theorem body_apply (hlimit : b.options.nodeLimit = none) (body : Scope) (p : Progress) :
    Walk.body (b.site find? n resolutions) body p =
      ((b.site find? n resolutions).emissions body.references).run
        (b.site find? n resolutions) p :=
  Walk.body_apply hlimit body p

/-- A walk alone ends without an error exactly when its references are all
resolved. -/
theorem body_ok_iff (hlimit : b.options.nodeLimit = none) (body : Scope) :
    (∃ q, Walk.body (b.site find? n resolutions) body (.initial .inactive) = .ok () q) ↔
      ((b.site find? n resolutions).emissions body.references).error = none := by
  rw [body_apply hlimit, Emissions.run]
  cases ((b.site find? n resolutions).emissions body.references).error <;> simp

/-- A walk alone records the edges of its references. -/
theorem mem_edges_body_iff (hlimit : b.options.nodeLimit = none) (body : Scope) {e : Edge} :
    e ∈ (Build.after (Walk.body (b.site find? n resolutions) body)
        (.initial .inactive)).graph.edges ↔
      e ∈ ((b.site find? n resolutions).emissions body.references).edges := by
  rw [Build.after, body_apply hlimit, Emissions.run]
  cases ((b.site find? n resolutions).emissions body.references).error <;>
    simp [Emissions.record, Progress.mem_edges_recordAll, Progress.initial]

/-- A node is good exactly when its references are all resolved. -/
theorem good_iff (hlimit : b.options.nodeLimit = none) (h : n.StandsFor find? s resolutions) :
    b.Good find? n ↔ (b.emissions find? n resolutions s).error = none := by
  constructor
  · rintro ⟨s', resolutions', h', hbody⟩
    obtain ⟨rfl, rfl⟩ := standsFor_unique h h'
    rw [emissions]
    cases hs : s'.body? with
    | none => rfl
    | some body => exact (body_ok_iff hlimit body).1 (hbody body hs)
  · intro herror
    refine ⟨s, resolutions, h, fun body hs => (body_ok_iff hlimit body).2 ?_⟩
    simpa only [emissions, hs] using herror

/-- What a node emits are the edges of its references. -/
theorem emits_iff (hlimit : b.options.nodeLimit = none) (h : n.StandsFor find? s resolutions) :
    b.Emits find? n m r ↔ ⟨n, m, r⟩ ∈ (b.emissions find? n resolutions s).edges := by
  constructor
  · rintro ⟨s', resolutions', body, h', hs, he⟩
    obtain ⟨rfl, rfl⟩ := standsFor_unique h h'
    simpa only [emissions, hs] using (mem_edges_body_iff hlimit body).1 he
  · intro he
    cases hs : s.body? with
    | none => simp [emissions, hs] at he
    | some body =>
        simp only [emissions, hs] at he
        exact ⟨s, resolutions, body, h, hs, (mem_edges_body_iff hlimit body).2 he⟩

/-- The edges of a node leave it. -/
theorem caller_of_mem_emissions {e : Edge}
    (he : e ∈ (b.emissions find? n resolutions s).edges) : e.caller = n := by
  rw [emissions] at he
  cases hs : s.body? with
  | none => simp [hs] at he
  | some body =>
      simp only [hs] at he
      obtain ⟨r, -, target, kind, -, rfl⟩ := Site.mem_edges_emissions he
      rfl

/-! ## processing -/

/-- What a specialization emits are the emissions of its references. -/
theorem emissions_eq (b : Builder) (find? : QualifiedName → Option Callable) (n : Node)
    (resolutions : Substitution) (s : Specialization) :
    b.emissions find? n resolutions s =
      (b.site find? n resolutions).emissions s.references := by
  rw [emissions, Specialization.references]
  cases s.body? <;> rfl

/-- Processing a specialization counts it, reports it and processes its
references. -/
theorem process_eq (site : Site) (hsite : site = b.site find? n resolutions) (s : Specialization)
    (p : Progress) :
    b.process find? n resolutions s p =
      (forM s.references fun r => site.emit r.name r.variants (r.chain site.resolutions))
        { p with
          processed := p.processed + 1
          events := p.events ++ [s.visit n p.worklist.pendingCount] } := by
  rw [process, Specialization.references, Specialization.visit]
  cases s.body? with
  | none => rfl
  | some body =>
      rw [Option.getD_some, ← Walk.body_eq_forM site body, hsite]
      rfl

/-- Without a limit it emits what its body emits. -/
theorem process_apply (hlimit : b.options.nodeLimit = none) (s : Specialization) (p : Progress) :
    b.process find? n resolutions s p =
      (b.emissions find? n resolutions s).run (b.site find? n resolutions)
        { p with
          processed := p.processed + 1
          events := p.events ++ [s.visit n p.worklist.pendingCount] } := by
  rw [process_eq (b.site find? n resolutions) rfl, emissions_eq]
  exact Site.forM_emit hlimit s.references _

/-- A template is the only one of its variant. -/
theorem template_eq_ok_iff {c : Callable} {kind : Variant} :
    c.template kind = .ok s ↔ c.templates kind = [s] := by
  unfold Callable.template
  cases c.templates kind with
  | nil => simp
  | cons x xs =>
      cases xs with
      | nil => simp
      | cons y ys => simp

/-- A node is looked up, put into the graph and then processed. -/
theorem processNode_eq (b : Builder) (find? : QualifiedName → Option Callable) (n : Node)
    (p : Progress) :
    b.processNode find? n p =
      match find? n.callable with
      | none => .error (.undeclaredCallable n.callable.text) p
      | some c =>
        match c.template n.kind with
        | .error e => .error e p
        | .ok s =>
          match c.instantiate n.typeArguments with
          | .error e => .error e p
          | .ok resolutions =>
            match Build.checkLimit b.options { p with graph := p.graph.addNode n } with
            | .error e q => .error e q
            | .ok _ q => b.process find? n resolutions s q := by
  rw [processNode]
  cases find? n.callable with
  | none => rfl
  | some c =>
      dsimp only
      rw [bind_apply, ofExcept_apply]
      cases c.template n.kind with
      | error e => rfl
      | ok s =>
          dsimp only
          rw [bind_apply, ofExcept_apply]
          cases c.instantiate n.typeArguments with
          | error e => rfl
          | ok resolutions =>
              show (Build.checkLimit b.options >>= fun _ => b.process find? n resolutions s)
                { p with graph := p.graph.addNode n } = _
              rw [bind_apply]
              cases Build.checkLimit b.options { p with graph := p.graph.addNode n } <;> rfl

/-- A node that stands for a specialization is put into the graph, and the
specialization is processed. -/
theorem processNode_apply (hlimit : b.options.nodeLimit = none)
    (h : n.StandsFor find? s resolutions) (p : Progress) :
    b.processNode find? n p =
      (b.emissions find? n resolutions s).run (b.site find? n resolutions)
        { p with
          graph := p.graph.addNode n
          processed := p.processed + 1
          events := p.events ++ [s.visit n p.worklist.pendingCount] } := by
  obtain ⟨c, hc, hs, hresolutions⟩ := h
  rw [processNode_eq, Build.checkLimit_apply, hlimit, hc]
  simp only [template_eq_ok_iff.2 hs, hresolutions]
  exact process_apply hlimit s { p with graph := p.graph.addNode n }

/-- A node is refused before it is put into the graph, or it stands for a
specialization, which is processed unless the limit is passed. -/
theorem processNode_cases (b : Builder) (find? : QualifiedName → Option Callable) (n : Node)
    (p : Progress) :
    (∃ e, n.Refused find? e ∧ b.processNode find? n p = .error e p) ∨
    ∃ s resolutions, n.StandsFor find? s resolutions ∧
      b.processNode find? n p =
        match Build.checkLimit b.options { p with graph := p.graph.addNode n } with
        | .error e q => .error e q
        | .ok _ q => b.process find? n resolutions s q := by
  rw [processNode_eq]
  cases hc : find? n.callable with
  | none => exact .inl ⟨_, .undeclared hc, rfl⟩
  | some c =>
      dsimp only
      cases hs : c.template n.kind with
      | error e => exact .inl ⟨e, .template hc hs, rfl⟩
      | ok s =>
          dsimp only
          cases hresolutions : c.instantiate n.typeArguments with
          | error e => exact .inl ⟨e, .arguments hc hresolutions, rfl⟩
          | ok resolutions =>
              exact .inr ⟨s, resolutions, ⟨c, hc, template_eq_ok_iff.1 hs, hresolutions⟩, rfl⟩

/-- What a construction gains when a node is processed: the node, its
dependencies, and offers of its callees to an active worklist. -/
structure Grows (b : Builder) (find? : QualifiedName → Option Callable) (n : Node)
    (p q : Progress) : Prop where
  nodes : ∀ x, x ∈ q.graph.nodes ↔ x ∈ p.graph.nodes ∨ x = n ∨ ∃ r, b.Emits find? n x r
  edges : ∀ e, e ∈ q.graph.edges ↔
    e ∈ p.graph.edges ∨ e.caller = n ∧ b.Emits find? n e.callee e.resolutions
  active : q.worklist.active = p.worklist.active
  resolved : q.worklist.resolved = p.worklist.resolved
  accepted : p.worklist.active = true → ∀ x, x ∈ q.worklist.accepted ↔
    x ∈ p.worklist.accepted ∨ ∃ r, b.Emits find? n x r
  processed : q.processed = p.processed + 1

/-- A node is processed without an error exactly when it is good. -/
theorem processNode_ok_iff (hlimit : b.options.nodeLimit = none) :
    (∃ q, b.processNode find? n p = .ok () q) ↔ b.Good find? n := by
  by_cases h : ∃ s resolutions, n.StandsFor find? s resolutions
  · obtain ⟨s, resolutions, h⟩ := h
    rw [processNode_apply hlimit h, good_iff hlimit h, Emissions.run]
    cases (b.emissions find? n resolutions s).error <;> simp
  · obtain ⟨e, -, herror⟩ | ⟨s, resolutions, hs, -⟩ := b.processNode_cases find? n p
    · rw [herror]
      constructor
      · rintro ⟨q', hq⟩
        cases hq
      · rintro ⟨s, resolutions, hs, -⟩
        exact absurd ⟨s, resolutions, hs⟩ h
    · exact absurd ⟨s, resolutions, hs⟩ h

/-- The dependencies of a node are among its edges. -/
theorem mem_emissions_iff (hlimit : b.options.nodeLimit = none)
    (h : n.StandsFor find? s resolutions) {e : Edge} :
    e ∈ (b.emissions find? n resolutions s).edges ↔
      e.caller = n ∧ b.Emits find? n e.callee e.resolutions := by
  constructor
  · intro he
    obtain rfl := caller_of_mem_emissions he
    exact ⟨rfl, (emits_iff hlimit h).2 he⟩
  · rintro ⟨rfl, he⟩
    exact (emits_iff hlimit h).1 he

/-- The callees of a node are the ends of its edges. -/
theorem exists_mem_emissions_iff (hlimit : b.options.nodeLimit = none)
    (h : n.StandsFor find? s resolutions) {x : Node} :
    (∃ e ∈ (b.emissions find? n resolutions s).edges, x = e.callee) ↔
      ∃ r, b.Emits find? n x r := by
  constructor
  · rintro ⟨e, he, rfl⟩
    exact ⟨e.resolutions, ((mem_emissions_iff hlimit h).1 he).2⟩
  · rintro ⟨r, hr⟩
    exact ⟨⟨n, x, r⟩, (emits_iff hlimit h).1 hr, rfl⟩

/-- What a construction gains when a node is processed without an error. -/
theorem processNode_grows (hlimit : b.options.nodeLimit = none)
    (h : b.processNode find? n p = .ok () q) : b.Grows find? n p q := by
  have hgood := (processNode_ok_iff hlimit).1 ⟨q, h⟩
  have ⟨s, resolutions, hs, _⟩ := hgood
  have hcallees := @exists_mem_emissions_iff b find? n s resolutions hlimit hs
  rw [processNode_apply hlimit hs, Emissions.run, (good_iff hlimit hs).1 hgood] at h
  cases h
  constructor
  case nodes =>
    intro x
    rw [Emissions.record, Progress.graph_note, Progress.mem_nodes_recordAll,
      CallGraph.mem_nodes_addNode, or_assoc, ← hcallees]
    refine or_congr_right ?_
    constructor
    · rintro (rfl | ⟨e, he, rfl | rfl⟩)
      · exact .inl rfl
      · exact .inl (caller_of_mem_emissions he)
      · exact .inr ⟨e, he, rfl⟩
    · rintro (rfl | ⟨e, he, rfl⟩)
      · exact .inl rfl
      · exact .inr ⟨e, he, .inr rfl⟩
  case edges =>
    intro e
    rw [Emissions.record, Progress.graph_note, Progress.mem_edges_recordAll,
      CallGraph.edges_addNode, mem_emissions_iff hlimit hs]
  case active => exact Progress.active_recordAll
  case resolved => exact Progress.resolved_recordAll
  case accepted =>
    intro hactive x
    rw [Emissions.record, Progress.worklist_note, ← hcallees]
    refine Progress.mem_accepted_recordAll ?_
    exact hactive
  case processed => exact Progress.processed_recordAll

end Builder

end CallGraphs
