import CallGraphs.Proofs.Passing
import CallGraphs.Proofs.Resolution
import CallGraphs.Proofs.Termination

/-!
# CallGraphs.Proofs.Concreteness

Construction on demand from entry points without parameters comes upon
concrete nodes only.  A body is walked at closed types for all parameters of
its callable, so whatever types over these parameters it binds, in however
many maps, their composition is closed again.

* `concrete_of_mem_emissions` — what a concrete node emits;
* `concrete_of_passes`, `passes_concrete` — the states that a construction
  passes through.
-/

namespace CallGraphs

/-! ## scopes of parameters -/

/-- The expressions around the references of a body bind only types over the
parameters of the callable that the body belongs to. -/
def Program.Scoped (program : Program) : Prop :=
  ∀ c ∈ program.callables, ∀ s ∈ c.specializations, ∀ r ∈ s.references, ∀ frame ∈ r.frames,
    frame.resolutions.Binds (Ty.Over c.parameters)

/-- The entry points that are declared have no parameters. -/
def Program.NonGeneric (program : Program) (entryPoints : List QualifiedName) : Prop :=
  ∀ name ∈ entryPoints, ∀ c, program.find? name = some c → c.typeParameters = []

/-- A map that waits for a reference is that of an expression around it. -/
theorem Reference.exists_frame_of_mem_maps {r : Reference} {map : Substitution}
    (h : map ∈ r.maps) : ∃ frame ∈ r.frames, frame.resolutions = map := by
  obtain ⟨frame, hframe, rfl⟩ := List.mem_map.1 h
  exact ⟨frame, (List.mem_filter.1 hframe).1, rfl⟩

/-! ## concrete nodes -/

/-- A node is concrete if its type arguments are closed, and given if its
callable has parameters. -/
structure Node.Concrete (find? : QualifiedName → Option Callable) (n : Node) : Prop where
  closed : ∀ types, n.typeArguments = some types → ∀ t ∈ types, t.Closed
  given : ∀ c, find? n.callable = some c → c.typeParameters ≠ [] → n.typeArguments ≠ none

/-- A node stands for a declared specialization of its callable. -/
theorem Node.StandsFor.exists_callable {program : Program} {n : Node} {s : Specialization}
    {resolutions : Substitution} (h : n.StandsFor program.find? s resolutions) :
    ∃ c, program.find? n.callable = some c ∧ c ∈ program.callables ∧ s ∈ c.specializations ∧
      c.instantiate n.typeArguments = .ok resolutions := by
  obtain ⟨c, hc, htemplates, hresolutions⟩ := h
  have hs : s ∈ c.templates n.kind := by simp [htemplates]
  exact ⟨c, hc, Program.mem_of_find? hc, (List.mem_filter.1 hs).1, hresolutions⟩

/-- Type arguments bind the declared parameters. -/
theorem Callable.isSome_get?_of_instantiate {c : Callable} {types : List Ty}
    {resolutions : Substitution} (h : c.instantiate (some types) = .ok resolutions)
    {p : TypeParameter} : (resolutions.get? p).isSome = true ↔ p ∈ c.parameters := by
  rw [Callable.instantiate] at h
  split at h
  · rename_i hlength
    cases h
    have hle : c.parameters.length ≤ types.length := by simp [hlength]
    rw [Substitution.isSome_get?_ofList, List.map_fst_zip hle]
  · cases h

/-- The substitution of a concrete node binds the parameters of its callable
to closed types. -/
theorem Node.Concrete.binds {find? : QualifiedName → Option Callable} {n : Node} {c : Callable}
    {resolutions : Substitution} (h : n.Concrete find?) (hc : find? n.callable = some c)
    (hresolutions : c.instantiate n.typeArguments = .ok resolutions) :
    resolutions.Binds Ty.Closed ∧ ∀ p ∈ c.parameters, (resolutions.get? p).isSome := by
  cases htypes : n.typeArguments with
  | none =>
      have hplain : c.typeParameters = [] :=
        Decidable.byContradiction fun hgeneric => h.given c hc hgeneric htypes
      rw [htypes] at hresolutions
      cases hresolutions
      exact ⟨Substitution.binds_empty _, by simp [Callable.parameters, hplain]⟩
  | some types =>
      rw [htypes] at hresolutions
      refine ⟨?_, fun p hp => (Callable.isSome_get?_of_instantiate hresolutions).2 hp⟩
      rw [Callable.instantiate] at hresolutions
      split at hresolutions
      · cases hresolutions
        exact Substitution.binds_ofList fun b hb =>
          h.closed types htypes b.2 (List.of_mem_zip hb).2
      · cases hresolutions

/-- A reference in the body of a concrete node leads to concrete nodes, by
edges with closed types. -/
theorem Site.concrete_of_resolve {site : Site} {r : Reference} {c : Callable}
    {target : Option (List Ty) × Substitution} (hcombiner : site.combiner = Combiner.compose)
    (hmaps : ∀ map ∈ r.maps, map.Binds (Ty.Over c.parameters))
    (hbound : ∀ p ∈ c.parameters, (site.resolutions.get? p).isSome)
    (hclosed : site.resolutions.Binds Ty.Closed) (h : site.resolve r = .ok target)
    (kind : Variant) :
    (site.edge r.name target kind).callee.Concrete site.find? ∧ target.2.Binds Ty.Closed := by
  obtain ⟨combined, d, hcombined, hd, hall, rfl⟩ := Site.resolve_eq_ok_iff.1 h
  rw [hcombiner, Reference.chain] at hcombined
  have hcombined := Combiner.closed_compose hmaps hbound hclosed hcombined
  have htypes := Walk.forall_boundTypes hcombined hall
  refine ⟨⟨fun types hgiven t ht => ?_, fun d' hd' hgeneric => ?_⟩, Substitution.binds_ofList htypes⟩
  · simp only [Site.edge, Callable.targetAt] at hgiven
    split at hgiven
    · cases hgiven
      obtain ⟨b, hb, rfl⟩ := List.mem_map.1 ht
      exact htypes b hb
    · cases hgiven
  · have hsame : d = d' := Option.some.inj (hd.symm.trans hd')
    subst hsame
    simp [Site.edge, Callable.targetAt, Callable.isGeneric, hgeneric]

namespace Builder

variable {b : Builder} {program : Program} {n : Node} {s : Specialization}
  {resolutions : Substitution} {q : Progress} {e : Edge} {entryPoints : List QualifiedName}

/-- What a concrete node emits. -/
theorem concrete_of_mem_emissions (hcombiner : b.combiner = Combiner.compose)
    (hscoped : program.Scoped) (hn : n.Concrete program.find?)
    (hs : n.StandsFor program.find? s resolutions)
    (he : e ∈ (b.emissions program.find? n resolutions s).edges) :
    e.callee.Concrete program.find? ∧ e.resolutions.Binds Ty.Closed := by
  obtain ⟨c, hc, hmem, hspecialization, hresolutions⟩ := hs.exists_callable
  obtain ⟨hclosed, hbound⟩ := hn.binds hc hresolutions
  rw [emissions_eq] at he
  obtain ⟨r, hr, target, kind, htarget, rfl⟩ := Site.mem_edges_emissions he
  refine Site.concrete_of_resolve hcombiner (fun map hmap => ?_) hbound hclosed htarget kind
  obtain ⟨frame, hframe, rfl⟩ := r.exists_frame_of_mem_maps hmap
  exact hscoped c hmem s hspecialization r hr frame hframe

/-! ## states -/

/-- A construction is concrete if the nodes of its graph and those that were
accepted are, and if its edges bind closed types. -/
structure Concrete (find? : QualifiedName → Option Callable) (p : Progress) : Prop where
  accepted : ∀ n ∈ p.worklist.accepted, n.Concrete find?
  nodes : ∀ n ∈ p.graph.nodes, n.Concrete find?
  edges : ∀ e ∈ p.graph.edges, e.resolutions.Binds Ty.Closed

/-- The body of an entry point without parameters is concrete. -/
theorem concrete_entry (hentries : program.NonGeneric entryPoints) {name : QualifiedName}
    (hname : name ∈ entryPoints) : (Node.entry name).Concrete program.find? := by
  refine ⟨fun types htypes => ?_, fun c hc hgeneric => ?_⟩
  · cases htypes
  · exact absurd (hentries name hname c hc) hgeneric

/-- Every state that a construction from such entry points passes through is
concrete. -/
theorem concrete_of_passes (hcombiner : b.combiner = Combiner.compose) (hscoped : program.Scoped)
    (hentries : program.NonGeneric entryPoints)
    (hpasses : b.Passes program.find? (.initial (seeds entryPoints)) q) :
    Concrete program.find? q := by
  have hinitial : Holds (·.Concrete program.find?) (·.resolutions.Binds Ty.Closed)
      (.initial (seeds entryPoints)) := .initial fun _ => concrete_entry hentries
  have h := hinitial.passes hpasses fun hn hs he =>
    concrete_of_mem_emissions hcombiner hscoped hn hs he
  exact ⟨h.accepted, h.nodes, h.edges⟩

/-! ## constructions -/

/-- Every node that a construction on demand comes upon is concrete.  If the
bodies of a program bind only types over the parameters of their callables
and no entry point has parameters, then in every state, with or without a
limit, whether the construction ends with a graph, with an error or not at
all, no type argument of a node in the graph or in the worklist and no type
bound by an edge mentions a parameter. -/
theorem passes_concrete (program : Program) (entryPoints : List QualifiedName) (options : Options)
    (hscoped : program.Scoped) (hentries : program.NonGeneric entryPoints) :
    let b : Builder := ⟨Combiner.compose, options⟩
    let start : Progress := .initial (seeds entryPoints)
    (∀ looks, b.Passes program.find? start (Build.after (b.drain program.find? looks) start)) ∧
    ∀ q, b.Passes program.find? start q →
      (∀ n, n ∈ q.graph.nodes ∨ n ∈ q.worklist.pending ∨ n ∈ q.worklist.resolved →
        ∀ types, n.typeArguments = some types → ∀ t ∈ types, ∀ p, t.mentions p = false) ∧
      ∀ e ∈ q.graph.edges, ∀ binding ∈ e.resolutions.entries, ∀ p, binding.2.mentions p = false := by
  intro b start
  refine ⟨fun looks => passes_drain b program.find? looks start, fun q hq => ?_⟩
  have hconcrete := concrete_of_passes (b := b) rfl hscoped hentries hq
  refine ⟨fun n hn types htypes => ?_, hconcrete.edges⟩
  obtain hn | hn := hn
  · exact (hconcrete.nodes n hn).closed types htypes
  · exact (hconcrete.accepted n (List.mem_append.2 hn)).closed types htypes

end Builder

namespace MutualRecursion

open Substitution

/-- A body that calls an operation at a type binds that type only. -/
theorem scoped_operation {name : String} {parameters : List String} {p : TypeParameter} {t : Ty}
    (ht : t.Over (operation name parameters []).parameters) :
    ∀ s ∈ (operation name parameters (callBody p t)).specializations, ∀ r ∈ s.references,
      ∀ frame ∈ r.frames, frame.resolutions.Binds
        (Ty.Over (operation name parameters (callBody p t)).parameters) := by
  intro s hs r hr frame hframe
  obtain rfl := List.mem_singleton.1 hs
  obtain rfl : r = ⟨p.origin, [.callee], [⟨∅, 0⟩, ⟨single p t, 0⟩]⟩ := List.mem_singleton.1 hr
  obtain rfl | hframe := List.mem_cons.1 hframe
  · exact binds_empty _
  · obtain rfl := List.mem_singleton.1 hframe
    exact binds_single p ht

/-- The operations bind types over their own parameters. -/
theorem scoped_program : (program .array).Scoped := by
  have hmain : (Ty.primitive .int).Over (operation "Main" [] []).parameters :=
    fun x hx => by simp [Ty.mentions] at hx
  have ha : (Ty.array (.parameter parameterOfA)).Over (operation "A" ["T"] []).parameters :=
    Ty.over_parameter parameterOfA
  have hb : (Ty.parameter parameterOfB).Over (operation "B" ["U"] []).parameters :=
    Ty.over_parameter parameterOfB
  exact List.forall_mem_cons.2 ⟨scoped_operation hmain, List.forall_mem_cons.2
    ⟨scoped_operation ha, List.forall_mem_singleton.2 (scoped_operation hb)⟩⟩

end MutualRecursion

namespace Builder

/-- Two operations that instantiate each other at ever larger types reach
concrete nodes only, however far their construction is followed. -/
theorem passes_concrete_of_mutual_recursion :
    let program := MutualRecursion.program .array
    let entryPoints := [MutualRecursion.operationName "Main"]
    program.Scoped ∧ program.NonGeneric entryPoints ∧
    ∀ looks, ∀ n ∈ (Build.after (standard.drain program.find? looks)
        (.initial (seeds entryPoints))).graph.nodes,
      ∀ types, n.typeArguments = some types → ∀ t ∈ types, ∀ p, t.mentions p = false := by
  intro program entryPoints
  have hscoped : program.Scoped := MutualRecursion.scoped_program
  have hentries : program.NonGeneric entryPoints := by
    intro name hname c hc
    obtain rfl := List.mem_singleton.1 hname
    cases (MutualRecursion.find?_main .array).symm.trans hc
    rfl
  obtain ⟨hpasses, hconcrete⟩ :=
    passes_concrete program entryPoints standard.options hscoped hentries
  exact ⟨hscoped, hentries, fun looks n hn => (hconcrete _ (hpasses looks)).1 n (.inl hn)⟩

end Builder

end CallGraphs
