import CallGraphs.Proofs.Reachability
import Mathlib.Logic.Relation

/-!
# CallGraphs.Proofs.Passing

The states that a construction on demand passes through, with or without a
limit, whether it ends with a graph, with an error or not at all.  Between
them lies one elementary change of the graph or of the worklist at a time, so
what every such change preserves holds in the middle of a walk as well.

* `Step` — an elementary change: a node comes out of the worklist, it is put
  into the graph, an edge that it emits is stored, a callee is offered;
* `Records.process` — a specialization is processed by elementary changes;
* `passes_drain` — a construction changes its state by such steps only;
* `processNode_eq_error`, `drain_eq_error` — where it fails, and what was combined last;
* `Holds.passes` — what emissions hand on holds in all of its states.
-/

namespace CallGraphs

/-! ## references -/

namespace Site

/-- What a reference does: note its chain and, if it is resolved, record its
edges. -/
theorem emit_eq (site : Site) (r : Reference) (p : Progress) :
    site.emit r.name r.variants (r.chain site.resolutions) p =
      match site.resolve r with
      | .error e => .error e (p.note [r.chain site.resolutions])
      | .ok target =>
        forM (r.variants.map (site.edge r.name target)) (Build.record site.options)
          (p.note [r.chain site.resolutions]) := by
  rw [emit, bind_apply, Build.noteChain_apply, resolve]
  dsimp only
  rw [bind_apply, ofExcept_apply]
  cases site.combiner (r.chain site.resolutions) with
  | error e => rfl
  | ok combined =>
      dsimp only
      rw [bind_apply, ofExcept_apply]
      cases site.target r.name combined <;> rfl

/-- References that are processed without an error are all resolved, and their
edges are recorded, with a limit or without. -/
theorem forM_emit_eq_ok {site : Site} {rs : List Reference} {p q : Progress}
    (h : (forM rs fun r => site.emit r.name r.variants (r.chain site.resolutions)) p = .ok () q) :
    (site.emissions rs).error = none ∧ q = (site.emissions rs).record site p := by
  induction rs generalizing p with
  | nil =>
      cases h
      simp [emissions, Emissions.record, Progress.note]
  | cons r rs ih =>
      rw [List.forM_cons, bind_apply, emit_eq] at h
      rw [emissions]
      cases hr : site.resolve r with
      | error e => simp [hr] at h
      | ok target =>
          simp only [hr] at h
          cases hfirst : forM (r.variants.map (site.edge r.name target)) (Build.record site.options)
              (p.note [r.chain site.resolutions]) with
          | error e q' => simp [hfirst] at h
          | ok u q' =>
              rw [hfirst] at h
              obtain ⟨herror, hq⟩ := ih h
              refine ⟨herror, ?_⟩
              rw [hq, Build.forM_record_eq_ok hfirst, Emissions.record, Emissions.record,
                Progress.recordAll_note, Progress.recordAll_note, Progress.note_note,
                Progress.recordAll_append]
              rfl

/-- References that are processed up to an error have come upon the limit, or
the last one of which the chain was combined is not resolved. -/
theorem forM_emit_eq_error {site : Site} {rs : List Reference} {p q : Progress} {e : BuildError}
    (h : (forM rs fun r => site.emit r.name r.variants (r.chain site.resolutions)) p =
      .error e q) :
    Build.LimitError site.options e ∨
    ∃ r ∈ rs, site.resolve r = .error e ∧
      q.chains.getLast? = some (r.chain site.resolutions) := by
  induction rs generalizing p with
  | nil => cases h
  | cons r rs ih =>
      rw [List.forM_cons, bind_apply, emit_eq] at h
      cases hr : site.resolve r with
      | error err =>
          rw [hr] at h
          cases h
          exact .inr ⟨r, List.mem_cons_self, hr, by simp [Progress.note]⟩
      | ok target =>
          simp only [hr] at h
          cases hfirst : forM (r.variants.map (site.edge r.name target)) (Build.record site.options)
              (p.note [r.chain site.resolutions]) with
          | error err q' =>
              rw [hfirst] at h
              cases h
              exact .inl (Build.limitError_of_forM_record hfirst)
          | ok u q' =>
              rw [hfirst] at h
              obtain hlimit | ⟨r', hr', hresolve, hlast⟩ := ih h
              · exact .inl hlimit
              · exact .inr ⟨r', List.mem_cons_of_mem r hr', hresolve, hlast⟩

end Site

namespace Builder

variable {b : Builder} {find? : QualifiedName → Option Callable} {n : Node}
  {s : Specialization} {resolutions : Substitution} {p q : Progress} {e : Edge}
  {entryPoints : List QualifiedName}

/-- A node that is processed without an error stands for a specialization whose
references are all resolved.  It is visited, and it and their edges are recorded,
with a limit or without. -/
theorem processNode_eq_ok (h : b.processNode find? n p = .ok () q) :
    ∃ s resolutions, n.StandsFor find? s resolutions ∧
      (b.emissions find? n resolutions s).error = none ∧
      q = (b.emissions find? n resolutions s).record (b.site find? n resolutions)
        { p with
          graph := p.graph.addNode n
          processed := p.processed + 1
          events := p.events ++ [s.visit n p.worklist.pendingCount] } := by
  obtain ⟨e, -, herror⟩ | ⟨s, resolutions, hs, hnode⟩ := b.processNode_cases find? n p
  · rw [h] at herror
    cases herror
  · obtain ⟨hwithin, -⟩ | ⟨limit, hbeyond⟩ :=
      Build.checkLimit_cases b.options { p with graph := p.graph.addNode n }
    · have hprocess := process_eq (b.site find? n resolutions) rfl s
        { p with graph := p.graph.addNode n }
      rw [h, hwithin] at hnode
      dsimp only at hnode
      rw [hprocess] at hnode
      obtain ⟨herror, hq⟩ := Site.forM_emit_eq_ok hnode.symm
      rw [← emissions_eq] at herror hq
      exact ⟨s, resolutions, hs, herror, hq⟩
    · rw [h, hbeyond] at hnode
      cases hnode

/-- A node that is not processed without an error is refused, it has come upon
the limit, or the last reference of which the chain was combined is one of its
own and not resolved. -/
theorem processNode_eq_error {e : BuildError} (h : b.processNode find? n p = .error e q) :
    n.Refused find? e ∨ Build.LimitError b.options e ∨
    ∃ s resolutions, n.StandsFor find? s resolutions ∧ ∃ r ∈ s.references,
      (b.site find? n resolutions).resolve r = .error e ∧
      q.chains.getLast? = some (r.chain resolutions) := by
  obtain ⟨err, hrefused, herror⟩ | ⟨s, resolutions, hs, hnode⟩ := b.processNode_cases find? n p
  · rw [h] at herror
    cases herror
    exact .inl hrefused
  · rw [h] at hnode
    cases hentered : Build.checkLimit b.options { p with graph := p.graph.addNode n } with
    | error err q' =>
        rw [hentered] at hnode
        cases hnode
        exact .inr (.inl (Build.limitError_of_checkLimit hentered))
    | ok u q' =>
        rw [hentered] at hnode
        dsimp only at hnode
        rw [process_eq (b.site find? n resolutions) rfl] at hnode
        obtain hlimit | hreference := Site.forM_emit_eq_error hnode.symm
        · exact .inr (.inl hlimit)
        · exact .inr (.inr ⟨s, resolutions, hs, hreference⟩)

/-! ## steps -/

/-- An elementary change of a construction on demand. -/
inductive Step (b : Builder) (find? : QualifiedName → Option Callable) :
    Progress → Progress → Prop
  /-- A node comes out of the worklist. -/
  | take {p : Progress} {n : Node} {w : Worklist} (h : p.worklist.pop = some (n, w)) :
      Step b find? p { p with worklist := w }
  /-- A node that came out is put into the graph. -/
  | enter {p : Progress} {n : Node} (h : n ∈ p.worklist.resolved) :
      Step b find? p { p with graph := p.graph.addNode n }
  /-- An edge that a node emits is stored. -/
  | store {p : Progress} {n : Node} {s : Specialization} {resolutions : Substitution} {e : Edge}
      (h : n ∈ p.worklist.resolved) (hs : n.StandsFor find? s resolutions)
      (he : e ∈ (b.emissions find? n resolutions s).edges) :
      Step b find? p (p.store b.options.traceEdges e)
  /-- The callee of a stored edge is offered to the worklist. -/
  | offer {p : Progress} {e : Edge} (h : e ∈ p.graph.edges) : Step b find? p (p.offer e.callee)
  /-- Something else is noted. -/
  | note {p q : Progress} (hgraph : q.graph = p.graph) (hworklist : q.worklist = p.worklist) :
      Step b find? p q

/-- A construction passes from one state to another by elementary changes. -/
def Passes (b : Builder) (find? : QualifiedName → Option Callable) : Progress → Progress → Prop :=
  Relation.ReflTransGen (b.Step find?)

theorem Passes.refl (b : Builder) (find? : QualifiedName → Option Callable) (p : Progress) :
    b.Passes find? p p :=
  Relation.ReflTransGen.refl

theorem Step.passes (h : b.Step find? p q) : b.Passes find? p q := Relation.ReflTransGen.single h

theorem Passes.trans {r : Progress} (h : b.Passes find? p q) (h' : b.Passes find? q r) :
    b.Passes find? p r :=
  Relation.ReflTransGen.trans h h'

/-- What came out of the worklist stays so. -/
theorem Step.mem_resolved (h : b.Step find? p q) (hn : n ∈ p.worklist.resolved) :
    n ∈ q.worklist.resolved := by
  cases h with
  | take hpop =>
      rw [(Worklist.pop_eq_some hpop).2.1]
      exact List.mem_cons_of_mem _ hn
  | enter => exact hn
  | store => exact hn
  | offer =>
      rw [Progress.offer, Worklist.resolved_offer]
      exact hn
  | note _ hworklist =>
      rw [hworklist]
      exact hn

/-! ## recording by elementary changes -/

/-- A step of a construction and what comes after it. -/
theorem reflTransGen_bind {R : Progress → Progress → Prop} {α β : Type} {x : Build α}
    {f : α → Build β} (hx : Relation.ReflTransGen R p (Build.after x p))
    (hf : ∀ a q, x p = .ok a q → Relation.ReflTransGen R q (Build.after (f a) q)) :
    Relation.ReflTransGen R p (Build.after (x >>= f) p) := by
  rw [Build.after, bind_apply]
  cases h : x p with
  | error e q =>
      rw [Build.after, h] at hx
      exact hx
  | ok a q =>
      rw [Build.after, h] at hx
      exact hx.trans (hf a q h)

/-- Elementary changes by which edges with the property `P` are recorded while
`I` holds of the construction. -/
structure Records (traceEdges : Bool) (R : Progress → Progress → Prop) (I : Progress → Prop)
    (P : Edge → Prop) : Prop where
  store : ∀ {p e}, I p → P e → R p (p.store traceEdges e)
  offer : ∀ {p e}, e ∈ p.graph.edges → R p (p.offer e.callee)
  note : ∀ {p chain}, R p (p.note [chain])
  keeps : ∀ {p q}, R p q → I p → I q

namespace Records

variable {R : Progress → Progress → Prop} {I : Progress → Prop} {P : Edge → Prop}
  {options : Options} {traceEdges : Bool}

/-- What a change keeps, several changes keep. -/
theorem keeps_reflTransGen (h : Records traceEdges R I P) (hpasses : Relation.ReflTransGen R p q)
    (hI : I p) : I q := by
  induction hpasses with
  | refl => exact hI
  | tail _ hstep ih => exact h.keeps hstep ih

/-- Recording an edge stores it, and offers its callee unless the limit is
passed. -/
theorem record (h : Records options.traceEdges R I P) (hI : I p) (he : P e) :
    Relation.ReflTransGen R p (Build.after (Build.record options e) p) := by
  have hstore : Relation.ReflTransGen R p (p.store options.traceEdges e) := .single (h.store hI he)
  have hmem : e ∈ (p.store options.traceEdges e).graph.edges :=
    CallGraph.mem_edges_addDependency.2 (.inr rfl)
  rw [Build.after, Build.record_apply]
  obtain ⟨hwithin, -⟩ | ⟨limit, hbeyond⟩ :=
    Build.checkLimit_cases options (p.store options.traceEdges e)
  · rw [hwithin]
    exact hstore.tail (h.offer hmem)
  · rw [hbeyond]
    exact hstore

/-- Recording several edges. -/
theorem forM_record {es : List Edge} (h : Records options.traceEdges R I P) (hI : I p)
    (hes : ∀ e ∈ es, P e) :
    Relation.ReflTransGen R p (Build.after (forM es (Build.record options)) p) := by
  induction es generalizing p with
  | nil => exact .refl
  | cons e es ih =>
      obtain ⟨he, hrest⟩ := List.forall_mem_cons.1 hes
      have hfirst := h.record hI he
      rw [List.forM_cons]
      refine reflTransGen_bind hfirst fun _ q hq => ih ?_ hrest
      rw [Build.after, hq] at hfirst
      exact h.keeps_reflTransGen hfirst hI

/-- Processing references: as long as they are resolved, the edges that they
record are among those that are emitted. -/
theorem forM_emit {site : Site} {rs : List Reference} (h : Records site.options.traceEdges R I P)
    (hI : I p) (hrs : ∀ e ∈ (site.emissions rs).edges, P e) :
    Relation.ReflTransGen R p (Build.after
      (forM rs fun r => site.emit r.name r.variants (r.chain site.resolutions)) p) := by
  induction rs generalizing p with
  | nil => exact .refl
  | cons r rs ih =>
      have hnote : R p (p.note [r.chain site.resolutions]) := h.note
      have hemit := site.emit_eq r p
      rw [Site.emissions] at hrs
      rw [List.forM_cons]
      cases hr : site.resolve r with
      | error e =>
          rw [hr] at hemit
          refine reflTransGen_bind ?_ fun _ q hq => ?_
          · rw [Build.after, hemit]
            exact .single hnote
          · rw [hemit] at hq
            cases hq
      | ok target =>
          simp only [hr, List.mem_append] at hrs
          rw [hr] at hemit
          have hfirst : Relation.ReflTransGen R p
              (Build.after (site.emit r.name r.variants (r.chain site.resolutions)) p) := by
            rw [Build.after, hemit]
            exact .head hnote (h.forM_record (h.keeps hnote hI) fun e he => hrs e (.inl he))
          refine reflTransGen_bind hfirst fun _ q hq => ih ?_ fun e he => hrs e (.inr he)
          rw [Build.after, hq] at hfirst
          exact h.keeps_reflTransGen hfirst hI

/-- Processing a specialization, once it is counted. -/
theorem process (h : Records b.options.traceEdges R I P)
    (hI : ∀ events, I { p with processed := p.processed + 1, events := events })
    (hP : ∀ e ∈ (b.emissions find? n resolutions s).edges, P e) :
    ∃ events, Relation.ReflTransGen R { p with processed := p.processed + 1, events := events }
      (Build.after (b.process find? n resolutions s) p) := by
  rw [emissions_eq] at hP
  rw [Build.after, process_eq (b.site find? n resolutions) rfl s p]
  exact ⟨_, h.forM_emit (hI _) hP⟩

end Records

/-! ## constructions -/

/-- The edges that a node emits are recorded once it came out of the
worklist. -/
theorem Step.records (hs : n.StandsFor find? s resolutions) :
    Records b.options.traceEdges (b.Step find?) (n ∈ ·.worklist.resolved)
      (· ∈ (b.emissions find? n resolutions s).edges) where
  store hn he := .store hn hs he
  offer he := .offer he
  note := .note rfl rfl
  keeps hstep hn := hstep.mem_resolved hn

/-- Processing a node that came out of the worklist. -/
theorem passes_processNode (hn : n ∈ p.worklist.resolved) :
    b.Passes find? p (Build.after (b.processNode find? n) p) := by
  rw [Build.after]
  obtain ⟨e, -, herror⟩ | ⟨s, resolutions, hs, hnode⟩ := b.processNode_cases find? n p
  · rw [herror]
    exact .refl b find? p
  · have henter : b.Passes find? p { p with graph := p.graph.addNode n } := (Step.enter hn).passes
    rw [hnode]
    obtain ⟨hwithin, -⟩ | ⟨limit, hbeyond⟩ :=
      Build.checkLimit_cases b.options { p with graph := p.graph.addNode n }
    · obtain ⟨events, hwalk⟩ := (Step.records (b := b) hs).process
        (p := { p with graph := p.graph.addNode n }) (fun _ => hn) fun _ he => he
      have hcount : b.Step find? { p with graph := p.graph.addNode n }
          { p with
            graph := p.graph.addNode n
            processed := p.processed + 1
            events := events } := .note rfl rfl
      rw [hwithin]
      exact henter.trans (hcount.passes.trans hwalk)
    · rw [hbeyond]
      exact henter

/-- A construction changes its state by elementary changes only, in any
number of looks, whether or not it fails. -/
theorem passes_drain (b : Builder) (find? : QualifiedName → Option Callable) (looks : Nat)
    (p : Progress) : b.Passes find? p (Build.after (b.drain find? looks) p) := by
  induction looks generalizing p with
  | zero => exact .refl b find? p
  | succ looks ih =>
      rw [Build.after, drain_step]
      cases hpop : p.worklist.pop with
      | none => exact .refl b find? p
      | some next =>
          obtain ⟨n, w⟩ := next
          have hn : n ∈ w.resolved := by simp [(Worklist.pop_eq_some hpop).2.1]
          have htake : b.Passes find? p { p with worklist := w } := (Step.take hpop).passes
          have hnode := htake.trans (passes_processNode (p := { p with worklist := w }) hn)
          dsimp only
          rw [Build.after] at hnode
          cases h : b.processNode find? n { p with worklist := w } with
          | error e q =>
              rw [h] at hnode
              exact hnode
          | ok u q =>
              rw [h] at hnode
              exact hnode.trans (ih q)

/-- A construction that fails does so at a node that comes out of the worklist
in a state that it passes through. -/
theorem drain_eq_error {looks : Nat} {e : BuildError} (h : b.drain find? looks p = .error e q) :
    ∃ p' n w, b.Passes find? p p' ∧ p'.worklist.pop = some (n, w) ∧
      b.processNode find? n { p' with worklist := w } = .error e q := by
  induction looks generalizing p with
  | zero => cases h
  | succ looks ih =>
      rw [drain_step] at h
      cases hpop : p.worklist.pop with
      | none =>
          rw [hpop] at h
          cases h
      | some next =>
          obtain ⟨n, w⟩ := next
          simp only [hpop] at h
          cases hn : b.processNode find? n { p with worklist := w } with
          | error err q' =>
              simp only [hn] at h
              cases h
              exact ⟨p, n, w, .refl b find? p, hpop, hn⟩
          | ok u q' =>
              simp only [hn] at h
              obtain ⟨p', n', w', hpasses, hrest⟩ := ih h
              have hone : b.drain find? 1 p = .ok false q' := by
                rw [drain_step]
                simp only [hpop, hn]
                rfl
              have hfirst := passes_drain b find? 1 p
              rw [Build.after, hone] at hfirst
              exact ⟨p', n', w', hfirst.trans hpasses, hrest⟩

/-! ## what holds throughout -/

/-- A property of nodes and one of edges hold of all that a construction has
come upon. -/
structure Holds (P : Node → Prop) (E : Edge → Prop) (p : Progress) : Prop where
  accepted : ∀ n ∈ p.worklist.accepted, P n
  nodes : ∀ n ∈ p.graph.nodes, P n
  edges : ∀ e ∈ p.graph.edges, E e

variable {P : Node → Prop} {E : Edge → Prop}

/-- Construction begins with the bodies of the entry points. -/
theorem Holds.initial (hentries : ∀ name ∈ entryPoints, P (.entry name)) :
    Holds P E (.initial (seeds entryPoints)) := by
  constructor
  case accepted =>
    intro n hn
    obtain ⟨-, -, haccepted⟩ := mem_accepted_foldl_offer (w := .demandDriven) rfl entryPoints
    obtain hn | ⟨name, hname, rfl⟩ := (haccepted n).1 hn
    · exact absurd hn List.not_mem_nil
    · exact hentries name hname
  case nodes => exact fun n hn => absurd hn List.not_mem_nil
  case edges => exact fun e he => absurd he List.not_mem_nil

/-- What emissions hand on from a node to its edges and their callees is kept
by an elementary change. -/
theorem Holds.step (h : Holds P E p) (hstep : b.Step find? p q)
    (hemits : ∀ {n s resolutions e}, P n → n.StandsFor find? s resolutions →
      e ∈ (b.emissions find? n resolutions s).edges → P e.callee ∧ E e) : Holds P E q := by
  have hresolved {n : Node} (hn : n ∈ p.worklist.resolved) : P n :=
    h.accepted n (List.mem_append_right _ hn)
  cases hstep with
  | take hpop =>
      exact ⟨fun x hx => h.accepted x ((Worklist.mem_accepted_of_pop hpop).1 hx), h.nodes, h.edges⟩
  | enter hn =>
      refine ⟨h.accepted, fun x hx => ?_, fun e he => h.edges e ?_⟩
      · obtain hx | rfl := CallGraph.mem_nodes_addNode.1 hx
        · exact h.nodes x hx
        · exact hresolved hn
      · rwa [CallGraph.edges_addNode] at he
  | store hn hs he =>
      obtain ⟨hcallee, hedge⟩ := hemits (hresolved hn) hs he
      refine ⟨h.accepted, fun x hx => ?_, fun d hd => ?_⟩
      · obtain hx | rfl | rfl := CallGraph.mem_nodes_addDependency.1 hx
        · exact h.nodes x hx
        · rw [caller_of_mem_emissions he]
          exact hresolved hn
        · exact hcallee
      · obtain hd | rfl := CallGraph.mem_edges_addDependency.1 hd
        · exact h.edges d hd
        · exact hedge
  | @offer e he =>
      refine ⟨fun x hx => ?_, h.nodes, h.edges⟩
      obtain hx | rfl := Worklist.mem_accepted_of_mem_offer hx
      · exact h.accepted x hx
      · exact h.nodes e.callee (p.graph.ends_mem e he).2
  | note hgraph hworklist =>
      exact ⟨hworklist ▸ h.accepted, hgraph ▸ h.nodes, hgraph ▸ h.edges⟩

/-- So it holds in every state that a construction passes through. -/
theorem Holds.passes (h : Holds P E p) (hpasses : b.Passes find? p q)
    (hemits : ∀ {n s resolutions e}, P n → n.StandsFor find? s resolutions →
      e ∈ (b.emissions find? n resolutions s).edges → P e.callee ∧ E e) : Holds P E q := by
  induction hpasses with
  | refl => exact h
  | tail _ hstep ih => exact ih.step hstep hemits

end Builder

end CallGraphs
