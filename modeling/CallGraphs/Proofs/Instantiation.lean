import CallGraphs.Proofs.Exhaustion
import CallGraphs.Proofs.Termination

/-!
# CallGraphs.Proofs.Instantiation

Construction on demand against exhaustive construction.  The one walks a body
at the type arguments of a node, the other once without any.  Composing the
maps of a reference and rewriting what they bind can be done in either order,
so the edges of a node are those of its template with its type arguments
substituted into them.

* `get?_compose_concat` — a chain with and without the map of the caller;
* `resolve_instance` — a reference with and without type arguments;
* `build_instantiates` — the edges that leave a node in the two graphs.
-/

namespace CallGraphs

/-! ## substitution into nodes and edges -/

/-- A node with types substituted into its type arguments. -/
def Node.substitute (n : Node) (s : Substitution) : Node :=
  { n with typeArguments := n.typeArguments.map fun types => types.map (·.substitute s) }

/-- The edge of a template taken to a node: types are substituted into its
callee and into what it binds. -/
def Edge.instance (e : Edge) (n : Node) (s : Substitution) : Edge :=
  ⟨n, e.callee.substitute s, e.resolutions.apply s⟩

/-- The substitution of the declared parameters by type arguments, which is
empty if none are given. -/
def Callable.arguments (c : Callable) (typeArguments : Option (List Ty)) : Substitution :=
  match typeArguments with
  | none => ∅
  | some types => .ofList (c.parameters.zip types)

theorem Callable.eq_arguments_of_instantiate {c : Callable} {typeArguments : Option (List Ty)}
    {resolutions : Substitution} (h : c.instantiate typeArguments = .ok resolutions) :
    resolutions = c.arguments typeArguments := by
  cases typeArguments with
  | none =>
      cases h
      rfl
  | some types =>
      rw [instantiate] at h
      split at h
      · cases h
        rfl
      · cases h

/-- Type arguments that mention no parameter of the callable bind its
parameters, if any, to such types. -/
theorem Callable.arguments_foreign {c : Callable} {typeArguments : Option (List Ty)}
    (h : ∀ types, typeArguments = some types → ∀ t ∈ types, ∀ p ∈ c.parameters,
      t.mentions p = false) :
    (c.arguments typeArguments).Binds fun t =>
      ∀ p, ((c.arguments typeArguments).get? p).isSome → t.mentions p = false := by
  cases typeArguments with
  | none => exact Substitution.binds_empty _
  | some types =>
      refine Substitution.binds_ofList fun b hb p hp => h types rfl b.2 (List.of_mem_zip hb).2 p ?_
      obtain ⟨d, hd, rfl⟩ := List.mem_map.1 (Substitution.isSome_get?_ofList.1 hp)
      exact (List.of_mem_zip hd).1

/-! ## chains -/

/-- A type into which foreign types were substituted is none of the parameters
that they replace. -/
theorem Ty.substitute_ne_parameter {s : Substitution} {p : TypeParameter} (t : Ty)
    (hs : s.Binds fun u => ∀ p, (s.get? p).isSome → u.mentions p = false)
    (hp : (s.get? p).isSome) : t.substitute s ≠ .parameter p := by
  intro h
  have hmentions : (t.substitute s).mentions p = true := by simp [h, mentions]
  obtain ⟨hnone, -⟩ | ⟨q, u, -, hq, hu⟩ := (mentions_substitute_iff s p t).1 hmentions
  · simp [hnone] at hp
  · rw [hs.of_get? hq p hp] at hu
    cases hu

/-- The templates of a variant are its specializations without type
arguments. -/
theorem Callable.mem_templates {c : Callable} {kind : Variant} {s : Specialization} :
    s ∈ c.templates kind ↔ s ∈ c.specializations ∧ s.kind = kind ∧ s.typeArguments = none := by
  simp [templates, Specialization.isTemplate]

namespace Combiner

variable {maps : List Substitution} {plain combined caller : Substitution} {p : TypeParameter}

/-- What a chain binds without the map of the caller, it binds with it too:
to the types that come out when that map is substituted. -/
theorem get?_compose_concat (hplain : compose (maps ++ [∅]) = .ok plain)
    (hcombined : compose (maps ++ [caller]) = .ok combined)
    (hcaller : caller.Binds fun u => ∀ p, (caller.get? p).isSome → u.mentions p = false)
    (hp : (plain.get? p).isSome) :
    combined.get? p = (plain.get? p).map (·.substitute caller) := by
  obtain ⟨collected, hcollected, hempty⟩ := foldlM_absorb_concat.1 (compose_eq_ok_iff.1 hplain).1
  obtain ⟨collected', hcollected', habsorb⟩ :=
    foldlM_absorb_concat.1 (compose_eq_ok_iff.1 hcombined).1
  obtain rfl : collected = collected' := Except.ok.inj (hcollected.symm.trans hcollected')
  obtain rfl : collected = plain := Except.ok.inj ((absorb_empty collected).symm.trans hempty)
  obtain ⟨t, ht⟩ := Option.isSome_iff_exists.1 hp
  rw [get?_absorb habsorb, ht, Option.map_some]
  cases hu : caller.get? p with
  | none => exact added_none_right p _
  | some u => exact added_of_ne (t.substitute_ne_parameter hcaller (by simp [hu])) _

end Combiner

/-! ## references -/

/-- A callable whose parameters are all bound is referred to at the types that
are bound for it. -/
theorem Callable.targetAt_substitute {c : Callable} {plain combined caller : Substitution}
    (h : ∀ p ∈ c.parameters, (plain.get? p).isSome ∧
      combined.get? p = (plain.get? p).map (·.substitute caller)) :
    c.targetAt combined =
      ((c.targetAt plain).1.map fun types => types.map (·.substitute caller),
        (c.targetAt plain).2.apply caller) := by
  have hbound : Walk.boundTypes c.parameters combined =
      (Walk.boundTypes c.parameters plain).map fun b => (b.1, b.2.substitute caller) := by
    rw [Walk.boundTypes, Walk.boundTypes, List.map_map]
    refine List.map_congr_left fun p hp => ?_
    obtain ⟨hsome, hget⟩ := h p hp
    obtain ⟨t, ht⟩ := Option.isSome_iff_exists.1 hsome
    simp [hget, ht]
  simp only [targetAt, hbound, Substitution.apply_ofList]
  by_cases hgeneric : c.isGeneric <;> simp [hgeneric]

namespace Site

variable {site : Site} {r : Reference} {rs : List Reference}
  {target target' : Option (List Ty) × Substitution}

/-- A reference with type arguments for the caller leads where it leads
without, once they are substituted. -/
theorem resolve_instance {b : Builder} {find? : QualifiedName → Option Callable} {n m : Node}
    {caller : Substitution} (hcombiner : b.combiner = Combiner.compose)
    (hcaller : caller.Binds fun u => ∀ p, (caller.get? p).isSome → u.mentions p = false)
    (hplain : (b.site find? m ∅).resolve r = .ok target)
    (h : (b.site find? n caller).resolve r = .ok target') (kind : Variant) :
    (b.site find? n caller).edge r.name target' kind =
      ((b.site find? m ∅).edge r.name target kind).instance n caller := by
  obtain ⟨plain, c, hchain, hc, hbound, rfl⟩ := resolve_eq_ok_iff.1 hplain
  obtain ⟨combined, d, hchain', hd, -, rfl⟩ := resolve_eq_ok_iff.1 h
  obtain rfl : c = d := Option.some.inj (hc.symm.trans hd)
  have hchain : Combiner.compose (r.maps ++ [∅]) = .ok plain := hcombiner ▸ hchain
  have hchain' : Combiner.compose (r.maps ++ [caller]) = .ok combined := hcombiner ▸ hchain'
  rw [Callable.targetAt_substitute fun p hp =>
    ⟨hbound p hp, Combiner.get?_compose_concat hchain hchain' hcaller (hbound p hp)⟩]
  rfl

end Site

namespace Builder

variable {b : Builder} {program : Program} {entryPoints : List QualifiedName} {n m : Node}
  {c : Callable} {s : Specialization} {resolutions caller : Substitution}

/-! ## specializations -/

/-- What a specialization emits at type arguments are the instances of what it
emits without. -/
theorem mem_emissions_instance {find? : QualifiedName → Option Callable}
    (hcombiner : b.combiner = Combiner.compose)
    (hcaller : caller.Binds fun u => ∀ p, (caller.get? p).isSome → u.mentions p = false)
    (hplain : (b.emissions find? m ∅ s).error = none)
    (h : (b.emissions find? n caller s).error = none) {e : Edge} :
    e ∈ (b.emissions find? n caller s).edges ↔
      ∃ e₀ ∈ (b.emissions find? m ∅ s).edges, e = e₀.instance n caller := by
  rw [emissions_eq] at hplain h
  rw [emissions_eq, emissions_eq, Site.mem_edges_emissions_iff h]
  simp only [Site.mem_edges_emissions_iff hplain]
  constructor
  · rintro ⟨r, hr, target, htarget, kind, hkind, rfl⟩
    obtain ⟨target₀, htarget₀⟩ := Site.exists_resolve_of_emissions hplain hr
    exact ⟨_, ⟨r, hr, target₀, htarget₀, kind, hkind, rfl⟩,
      Site.resolve_instance hcombiner hcaller htarget₀ htarget kind⟩
  · rintro ⟨e₀, ⟨r, hr, target₀, htarget₀, kind, hkind, rfl⟩, rfl⟩
    obtain ⟨target, htarget⟩ := Site.exists_resolve_of_emissions h hr
    exact ⟨r, hr, target, htarget, kind, hkind,
      (Site.resolve_instance hcombiner hcaller htarget₀ htarget kind).symm⟩

/-- What a specialization emits where it is declared leaves its node. -/
theorem caller_of_mem_declared {e : Edge} (he : e ∈ (b.declared program c s).edges) :
    e.caller = s.node c := by
  rw [declared] at he
  cases hresolutions : c.instantiate s.typeArguments with
  | error err => simp [hresolutions] at he
  | ok resolutions =>
      rw [hresolutions] at he
      exact caller_of_mem_emissions he

/-- Among distinct names, the specialization that a node stands for is the
only one whose node is that node without type arguments. -/
theorem node_eq_iff {x : Callable × Specialization} (hdistinct : program.Distinct)
    (hx : x ∈ program.specializations) (hc : program.find? n.callable = some c)
    (hs : c.templates n.kind = [s]) :
    x.2.node x.1 = ⟨n.callable, n.kind, none⟩ ↔ x = (c, s) := by
  constructor
  · obtain ⟨d, s'⟩ := x
    intro hnode
    obtain ⟨hd, hs'⟩ := Program.mem_specializations.1 hx
    obtain ⟨hname, hkind, htypes⟩ := Node.mk.inj hnode
    have hfound := (Program.find?_eq_some_iff hdistinct).2 ⟨hd, hname⟩
    obtain rfl : c = d := Option.some.inj (hc.symm.trans hfound)
    have htemplate := Callable.mem_templates.2 ⟨hs', hkind, htypes⟩
    rw [hs, List.mem_singleton] at htemplate
    rw [htemplate]
  · rintro rfl
    obtain ⟨-, hkind, htypes⟩ := Callable.mem_templates.1 (hs ▸ List.mem_singleton_self s)
    rw [Specialization.node, Program.name_of_find? hc, hkind, htypes]

/-- The edges that leave a node without type arguments in the exhaustive graph
are those of the specialization that it stands for. -/
theorem mem_edges_template {g : CallGraph} {st : Statistics} {looks : Nat}
    (hlimit : b.options.nodeLimit = none) (hdistinct : program.Distinct)
    (hbuilt : (b.build program [] looks).outcome = .built g st)
    (hc : program.find? n.callable = some c) (hs : c.templates n.kind = [s]) :
    (b.emissions program.find? ⟨n.callable, n.kind, none⟩ ∅ s).error = none ∧
    ∀ e, e ∈ (b.emissions program.find? ⟨n.callable, n.kind, none⟩ ∅ s).edges ↔
      e ∈ g.edges ∧ e.caller = ⟨n.callable, n.kind, none⟩ := by
  obtain ⟨q, hq, rfl, -⟩ := collects_of_built hlimit hbuilt
  obtain ⟨hdeclares, -, htypes⟩ := Callable.mem_templates.1 (hs ▸ List.mem_singleton_self s)
  have hmem : (c, s) ∈ program.specializations :=
    Program.mem_specializations.2 ⟨Program.mem_of_find? hc, hdeclares⟩
  have hnode := (node_eq_iff hdistinct hmem hc hs).2 rfl
  have hdeclared : b.declared program c s =
      b.emissions program.find? ⟨n.callable, n.kind, none⟩ ∅ s := by
    rw [declared, htypes, hnode]
    rfl
  rw [← hdeclared]
  refine ⟨(built_iff hlimit looks).1 ⟨_, _, hbuilt⟩ _ hmem, fun e => ?_⟩
  constructor
  · intro he
    exact ⟨(hq.edges e).2 (.inr ⟨_, hmem, he⟩), (caller_of_mem_declared he).trans hnode⟩
  · rintro ⟨he, hcaller⟩
    obtain he | ⟨x, hx, he⟩ := (hq.edges e).1 he
    · exact absurd he List.not_mem_nil
    · have hown := (node_eq_iff hdistinct hx hc hs).1 ((caller_of_mem_declared he).symm.trans hcaller)
      rw [hown] at he
      exact he

/-- The edges that leave a node in a graph built on demand are those of the
specialization that it stands for. -/
theorem mem_edges_of_built {g : CallGraph} {st : Statistics} {looks : Nat}
    (hlimit : b.options.nodeLimit = none) (hentries : entryPoints ≠ [])
    (hbuilt : (b.build program entryPoints looks).outcome = .built g st) (hn : n ∈ g.nodes) :
    ∃ s resolutions, n.StandsFor program.find? s resolutions ∧
      (b.emissions program.find? n resolutions s).error = none ∧
      ∀ e, e ∈ (b.emissions program.find? n resolutions s).edges ↔ e ∈ g.edges ∧ e.caller = n := by
  obtain ⟨q, hq, hpending, rfl, -⟩ := exists_of_built hentries hlimit hbuilt
  have hresolved := (hq.mem_nodes_iff hpending).1 hn
  have hgood := hq.good n hresolved
  have ⟨s, resolutions, hstands, _⟩ := hgood
  refine ⟨s, resolutions, hstands, (good_iff hlimit hstands).1 hgood, fun e => ?_⟩
  rw [mem_emissions_iff hlimit hstands, hq.edges]
  constructor
  · rintro ⟨rfl, he⟩
    exact ⟨⟨hresolved, he⟩, rfl⟩
  · rintro ⟨⟨-, he⟩, rfl⟩
    exact ⟨rfl, he⟩

/-! ## constructions -/

/-- The graph of a construction on demand is the instantiation of the
exhaustive one.  Where both are built, and the type arguments of a node
mention no parameter of its callable, the edges that leave the node are those
that leave its template, with the type arguments substituted for the
parameters in their callees and in what they bind. -/
theorem build_instantiates (program : Program) (entryPoints : List QualifiedName)
    (traceEdges : Bool) (hdistinct : program.Distinct) (hentries : entryPoints ≠ []) :
    let b : Builder := ⟨Combiner.compose, ⟨none, traceEdges⟩⟩
    ∀ looks₀ g₀ st₀ looks g st, (b.build program [] looks₀).outcome = .built g₀ st₀ →
      (b.build program entryPoints looks).outcome = .built g st →
      ∀ n ∈ g.nodes, ∃ f, program.find? n.callable = some f ∧
        ((∀ types, n.typeArguments = some types → ∀ t ∈ types, ∀ p ∈ f.parameters,
            t.mentions p = false) →
          ∀ e, (e ∈ g.edges ∧ e.caller = n) ↔
            ∃ e₀ ∈ g₀.edges, e₀.caller = ⟨n.callable, n.kind, none⟩ ∧
              e = e₀.instance n (f.arguments n.typeArguments)) := by
  intro b looks₀ g₀ st₀ looks g st h₀ h n hn
  obtain ⟨s, resolutions, ⟨f, hf, hs, hresolutions⟩, herror, hedges⟩ :=
    mem_edges_of_built rfl hentries h hn
  obtain rfl := Callable.eq_arguments_of_instantiate hresolutions
  obtain ⟨herror₀, hedges₀⟩ := mem_edges_template rfl hdistinct h₀ hf hs
  refine ⟨f, hf, fun hforeign e => ?_⟩
  have hinstances := mem_emissions_instance (e := e) rfl (Callable.arguments_foreign hforeign)
    herror₀ herror
  rw [← hedges, hinstances]
  simp only [hedges₀, and_assoc]

/-- If `A` and `B` call each other at their own parameters, the edges that
leave `A` at integers are those that leave `A`, at integers. -/
theorem build_instantiates_mutual_recursion :
    let program := MutualRecursion.program id
    let entryPoints := [MutualRecursion.operationName "Main"]
    let n : Node := ⟨MutualRecursion.operationName "A", .body, some [.primitive .int]⟩
    program.Distinct ∧ entryPoints ≠ [] ∧
    ∃ g₀ st₀ g st, (standard.build program [] 0).outcome = .built g₀ st₀ ∧
      (standard.build program entryPoints 4).outcome = .built g st ∧ n ∈ g.nodes ∧
      ∀ e, (e ∈ g.edges ∧ e.caller = n) ↔
        ∃ e₀ ∈ g₀.edges, e₀.caller = ⟨n.callable, .body, none⟩ ∧
          e = e₀.instance n (.single MutualRecursion.parameterOfA (.primitive .int)) := by
  intro program entryPoints n
  have hdistinct : program.Distinct := by
    rw [Program.Distinct]
    decide +kernel
  have hentries : entryPoints ≠ [] := List.cons_ne_nil _ _
  have hnodes₀ : (standard.build program [] 0).outcome.graph?.map (·.nodeCount) = some 6 := by
    decide +kernel
  have hnodes : (standard.build program entryPoints 4).outcome.graph?.map (decide <| n ∈ ·.nodes) =
      some true := by decide +kernel
  obtain ⟨g₀, st₀, h₀, -⟩ := Outcome.exists_built hnodes₀
  obtain ⟨g, st, h, hn⟩ := Outcome.exists_built hnodes
  have hn : n ∈ g.nodes := of_decide_eq_true hn
  obtain ⟨f, hf, hedges⟩ :=
    build_instantiates program entryPoints false hdistinct hentries 0 g₀ st₀ 4 g st h₀ h n hn
  cases (MutualRecursion.find?_a id).symm.trans hf
  refine ⟨hdistinct, hentries, g₀, st₀, g, st, h₀, h, hn, hedges ?_⟩
  rintro types ⟨⟩ t ht p -
  rw [List.mem_singleton.1 ht]
  rfl

end Builder

end CallGraphs
