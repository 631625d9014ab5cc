import CallGraphs.Proofs.Instantiation
import CallGraphs.Proofs.Runs

/-!
# CallGraphs.Proofs.Labels

The substitution on an edge is determined by the callee.  A walk reads the
type arguments of a callee and the substitution of the edge off one and the
same combination, whatever the combiner makes of a chain; and a node is walked
at the substitution that its type arguments give.

* `refers_of_mem_emissions` — what a walk knows of the callees of its edges;
* `Callable.Labels.eq`, `Callable.Labels.instantiate` — a label and the type
  arguments that it belongs to;
* `Refers.moves` — the states that a construction moves to;
* `edges_labelled` — the edges of a construction.
-/

namespace CallGraphs

namespace Substitution

variable {s : Substitution} {bindings : List (TypeParameter × Ty)} {p : TypeParameter}

/-- Bindings that agree with a substitution make up its part at their
parameters, also where they repeat one. -/
theorem get?_ofList_of_agree (h : ∀ b ∈ bindings, s.get? b.1 = some b.2) :
    (ofList bindings).get? p = if p ∈ bindings.map (·.1) then s.get? p else none := by
  induction bindings using List.reverseRecOn with
  | nil => rfl
  | append_singleton bindings b ih =>
      obtain ⟨hinit, hlast⟩ := List.forall_mem_append.1 h
      rw [ofList_concat, get?_insert, ih hinit]
      by_cases hp : p = b.1
      · simp [hp, hlast b]
      · rw [if_neg hp]
        simp only [List.map_append, List.map_cons, List.map_nil, List.mem_append,
          List.mem_singleton, hp, or_false]

end Substitution

/-! ## labels -/

/-- A substitution is the label of type arguments of a callable: it binds the
declared parameters and nothing else, each of them to the type argument at its
place, and it is empty if there are no type arguments. -/
def Callable.Labels (c : Callable) (typeArguments : Option (List Ty)) (label : Substitution) :
    Prop :=
  (∀ p, (label.get? p).isSome ↔ p ∈ c.parameters) ∧
    match typeArguments with
    | none => label = ∅
    | some types => List.Forall₂ (fun p t => label.get? p = some t) c.parameters types

namespace Callable

variable {c : Callable} {typeArguments : Option (List Ty)} {label label' combined : Substitution}

/-- Type arguments are instantiated at their label. -/
theorem Labels.instantiate (h : c.Labels typeArguments label) :
    c.instantiate typeArguments = .ok label := by
  obtain ⟨hbound, hplaces⟩ := h
  cases typeArguments with
  | none =>
      rw [hplaces]
      rfl
  | some types =>
      have hlength : c.parameters.length = types.length := hplaces.length_eq
      have hagree : ∀ b ∈ c.parameters.zip types, label.get? b.1 = some b.2 :=
        fun b hb => (List.forall₂_iff_zip.1 hplaces).2 hb
      have hkeys : (c.parameters.zip types).map (·.1) = c.parameters :=
        List.map_fst_zip hlength.le
      rw [Callable.instantiate, if_pos (by rw [← hlength, length_parameters])]
      refine congrArg Except.ok (Substitution.ext_get? fun p => ?_)
      rw [Substitution.get?_ofList_of_agree hagree, hkeys]
      by_cases hp : p ∈ c.parameters
      · rw [if_pos hp]
      · rw [if_neg hp]
        exact (Option.not_isSome_iff_eq_none.1 fun h => hp ((hbound p).1 h)).symm

/-- Type arguments have one label. -/
theorem Labels.eq (h : c.Labels typeArguments label) (h' : c.Labels typeArguments label') :
    label = label' :=
  Except.ok.inj (h.instantiate.symm.trans h'.instantiate)

/-- The types that a reference binds have its substitution as their label. -/
theorem labels_targetAt (h : ∀ p ∈ c.parameters, (combined.get? p).isSome) :
    c.Labels (c.targetAt combined).1 (c.targetAt combined).2 := by
  have hbound {p : TypeParameter} (hp : p ∈ c.parameters) :
      combined.get? p = some ((combined.get? p).getD .missing) := by
    obtain ⟨t, ht⟩ := Option.isSome_iff_exists.1 (h p hp)
    rw [ht, Option.getD_some]
  have hagree : ∀ b ∈ Walk.boundTypes c.parameters combined, combined.get? b.1 = some b.2 := by
    intro b hb
    obtain ⟨p, hp, rfl⟩ := List.mem_map.1 hb
    exact hbound hp
  have hkeys : (Walk.boundTypes c.parameters combined).map (·.1) = c.parameters := by
    simp [Walk.boundTypes, Function.comp_def]
  have hlabel (p : TypeParameter) : (c.targetAt combined).2.get? p =
      if p ∈ c.parameters then combined.get? p else none := by
    rw [targetAt, Substitution.get?_ofList_of_agree hagree, hkeys]
  refine ⟨fun p => ?_, ?_⟩
  · rw [hlabel]
    by_cases hp : p ∈ c.parameters <;> simp [hp, h]
  · by_cases hgeneric : c.isGeneric
    · have htypes : (c.targetAt combined).1 =
          some ((Walk.boundTypes c.parameters combined).map (·.2)) := if_pos hgeneric
      rw [htypes]
      simp only [Walk.boundTypes, List.map_map, List.forall₂_map_right_iff, List.forall₂_same]
      intro p hp
      rw [hlabel, if_pos hp]
      exact hbound hp
    · have htypes : (c.targetAt combined).1 = none := if_neg hgeneric
      have hplain : c.parameters = [] := by simpa [isGeneric, parameters] using hgeneric
      rw [htypes]
      refine Substitution.ext_get? fun p => ?_
      rw [hlabel, hplain, if_neg List.not_mem_nil]
      rfl

end Callable

/-! ## edges -/

/-- An edge refers to a declared callable: its callee and its substitution are
those of a reference at which some types are bound to the declared
parameters. -/
def Edge.Refers (find? : QualifiedName → Option Callable) (e : Edge) : Prop :=
  ∃ c combined, find? e.callee.callable = some c ∧ (∀ p ∈ c.parameters, (combined.get? p).isSome) ∧
    (e.callee.typeArguments, e.resolutions) = c.targetAt combined

/-- The substitution of an edge is the label of its callee. -/
theorem Edge.Refers.labels {find? : QualifiedName → Option Callable} {e : Edge}
    (h : e.Refers find?) :
    ∃ c, find? e.callee.callable = some c ∧ c.Labels e.callee.typeArguments e.resolutions := by
  obtain ⟨c, combined, hc, hbound, htarget⟩ := h
  have hlabels := Callable.labels_targetAt hbound
  rw [← htarget] at hlabels
  exact ⟨c, hc, hlabels⟩

/-- Edges that lead from one node to another are the same. -/
theorem Edge.Refers.eq {find? : QualifiedName → Option Callable} {e e' : Edge}
    (h : e.Refers find?) (h' : e'.Refers find?) (hcaller : e'.caller = e.caller)
    (hcallee : e'.callee = e.callee) : e' = e := by
  obtain ⟨c, hc, hlabels⟩ := h.labels
  obtain ⟨c', hc', hlabels'⟩ := h'.labels
  rw [hcallee] at hc' hlabels'
  obtain rfl : c = c' := Option.some.inj (hc.symm.trans hc')
  cases e
  cases e'
  simp only [Edge.mk.injEq]
  exact ⟨hcaller, hcallee, hlabels'.eq hlabels⟩

/-- The edges that references emit refer to declared callables. -/
theorem Site.refers_of_mem_emissions {site : Site} {rs : List Reference} {e : Edge}
    (he : e ∈ (site.emissions rs).edges) : e.Refers site.find? := by
  obtain ⟨r, -, target, kind, hr, rfl⟩ := mem_edges_emissions he
  obtain ⟨combined, c, -, hc, hbound, rfl⟩ := resolve_eq_ok_iff.1 hr
  exact ⟨c, combined, hc, hbound, rfl⟩

namespace Builder

variable {b : Builder} {find? : QualifiedName → Option Callable} {program : Program}
  {entryPoints : List QualifiedName} {p q : Progress} {n m : Node} {e : Edge} {r : Substitution}

/-- So do the edges that a specialization emits. -/
theorem refers_of_mem_emissions {resolutions : Substitution} {s : Specialization}
    (he : e ∈ (b.emissions find? n resolutions s).edges) : e.Refers find? := by
  rw [emissions_eq] at he
  exact Site.refers_of_mem_emissions he

/-- Also where it is declared. -/
theorem refers_of_mem_declared {c : Callable} {s : Specialization}
    (he : e ∈ (b.declared program c s).edges) : e.Refers program.find? := by
  rw [declared] at he
  cases hresolutions : c.instantiate s.typeArguments with
  | error err => simp [hresolutions] at he
  | ok resolutions =>
      rw [hresolutions] at he
      exact refers_of_mem_emissions he

/-! ## states -/

/-- All edges of a construction refer to declared callables. -/
def Refers (find? : QualifiedName → Option Callable) (p : Progress) : Prop :=
  ∀ e ∈ p.graph.edges, e.Refers find?

theorem Refers.store (h : Refers find? p) (he : e.Refers find?) (traceEdges : Bool) :
    Refers find? (p.store traceEdges e) := by
  intro d hd
  obtain hd | rfl := CallGraph.mem_edges_addDependency.1 hd
  · exact h d hd
  · exact he

/-- An elementary change of a construction on demand keeps that so. -/
theorem Refers.step (h : Refers find? p) (hstep : b.Step find? p q) : Refers find? q := by
  cases hstep with
  | take => exact h
  | enter =>
      intro e he
      rw [CallGraph.edges_addNode] at he
      exact h e he
  | store _ _ he => exact h.store (refers_of_mem_emissions he) _
  | offer => exact h
  | note hgraph => exact fun e he => h e (hgraph ▸ he)

/-- So does one of an exhaustive construction. -/
theorem Refers.sweepStep (h : Refers program.find? p) (hstep : b.SweepStep program p q) :
    Refers program.find? q := by
  cases hstep with
  | store _ he => exact h.store (refers_of_mem_declared he) _
  | offer => exact h
  | note hgraph => exact fun e he => h e (hgraph ▸ he)

/-- In every state that a construction moves to, all edges refer to declared
callables. -/
theorem Refers.moves (h : b.Moves program entryPoints (start entryPoints) q) :
    Refers program.find? q :=
  h.keeps (fun hstep hp => hp.step hstep) (fun hstep hp => hp.sweepStep hstep)
    fun _ he => absurd he List.not_mem_nil

/-! ## constructions -/

/-- A node is processed at the label of its type arguments. -/
theorem processNode_of_labels {c : Callable} {label : Substitution} {s : Specialization}
    (hc : find? n.callable = some c) (hlabels : c.Labels n.typeArguments label)
    (hs : c.template n.kind = .ok s) :
    b.processNode find? n = (do
      modify fun p => { p with graph := p.graph.addNode n }
      Build.checkLimit b.options
      b.process find? n label s) := by
  rw [processNode, hc]
  dsimp only
  rw [hs, hlabels.instantiate]
  rfl

/-- The substitution of an edge is determined by its callee.  In every state
of a construction, in either mode and with any combiner, it binds exactly the
declared parameters of the callable found for the callee, each to the type
argument at its place, and it is empty if the callee has no type arguments.
So a built graph has at most one edge from a node to another.  On demand, a
node is walked at the substitution of every edge that leads to it. -/
theorem edges_labelled (b : Builder) (program : Program) (entryPoints : List QualifiedName) :
    (∀ looks, b.Moves program entryPoints (start entryPoints)
      (b.state program entryPoints looks)) ∧
    (∀ q, b.Moves program entryPoints (start entryPoints) q → ∀ e ∈ q.graph.edges,
      ∃ c, program.find? e.callee.callable = some c ∧
        c.Labels e.callee.typeArguments e.resolutions ∧
        ∀ s, c.template e.callee.kind = .ok s →
          b.processNode program.find? e.callee = do
            modify fun p => { p with graph := p.graph.addNode e.callee }
            Build.checkLimit b.options
            b.process program.find? e.callee e.resolutions s) ∧
    ∀ looks g st, (b.build program entryPoints looks).outcome = .built g st →
      ∀ e ∈ g.edges, ∀ e' ∈ g.edges, e'.caller = e.caller → e'.callee = e.callee → e' = e := by
  refine ⟨b.moves_run program entryPoints, fun q hq e he => ?_, fun looks g st h e he e' he' => ?_⟩
  · obtain ⟨c, hc, hlabels⟩ := (Refers.moves hq e he).labels
    exact ⟨c, hc, hlabels, fun s hs => processNode_of_labels hc hlabels hs⟩
  · obtain rfl := graph_eq_of_built h
    have hrefers := Refers.moves (b.moves_run program entryPoints looks)
    exact (hrefers e he).eq (hrefers e' he')

/-- If an operation declares the same parameter twice, an edge binds it once,
and the callee has its type at both places. -/
theorem edges_labelled_repeated_parameter :
    let a := MutualRecursion.operationName "A"
    let p := MutualRecursion.parameterOfA
    let int : Ty := .primitive .int
    let program : Program :=
      ⟨[⟨"Test", [MutualRecursion.operation "Main" [] (MutualRecursion.callBody p int),
        MutualRecursion.operation "A" ["T", "T"] []]⟩]⟩
    ∃ c, program.find? a = some c ∧ c.parameters = [p, p] ∧
      c.Labels (some [int, int]) (Substitution.single p int) := by
  intro a p int program
  have hedge : (⟨.entry (MutualRecursion.operationName "Main"), ⟨a, .body, some [int, int]⟩,
      Substitution.single p int⟩ : Edge) ∈
        (standard.state program [MutualRecursion.operationName "Main"] 1).graph.edges := by
    decide +kernel
  have hmain := edges_labelled standard program [MutualRecursion.operationName "Main"]
  obtain ⟨c, hc, hlabels, -⟩ := hmain.2.1 _ (hmain.1 1) _ hedge
  refine ⟨c, hc, ?_, hlabels⟩
  cases hc
  rfl

end Builder

end CallGraphs
