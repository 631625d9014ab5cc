import CallGraphs.Proofs.Composition
import CallGraphs.Proofs.Reachability
import Mathlib.Data.Set.Finite.List

/-!
# CallGraphs.Proofs.BoundTypes

The types of reached nodes.  They are made by composition from the types that
the expressions of a program bind.  In a program that instantiates only at
parameters and at types without parameters, composition makes no new types,
and finitely many nodes are reached.

* `Reached.instantiates` — the type arguments of a reached node;
* `finite_reached_of_flat` — the reached nodes of such a program.
-/

namespace CallGraphs

/-! ## references -/

/-- The results of a loop that does not fail come from its elements. -/
theorem mem_of_mapM_eq_ok {α β : Type} {f : α → Except BuildError β} {xs : List α} {ys : List β}
    (h : xs.mapM f = .ok ys) : ys.length = xs.length ∧ ∀ y ∈ ys, ∃ x ∈ xs, f x = .ok y := by
  induction xs generalizing ys with
  | nil =>
      cases h
      exact ⟨rfl, fun y hy => absurd hy List.not_mem_nil⟩
  | cons x xs ih =>
      rw [List.mapM_cons] at h
      cases hx : f x with
      | error e =>
          rw [hx] at h
          cases h
      | ok y =>
          cases hxs : xs.mapM f with
          | error e =>
              rw [hx, hxs] at h
              cases h
          | ok rest =>
              rw [hx, hxs] at h
              cases h
              obtain ⟨hlength, hmem⟩ := ih hxs
              refine ⟨congrArg (· + 1) hlength, List.forall_mem_cons.2 ⟨?_, fun z hz => ?_⟩⟩
              · exact ⟨x, List.mem_cons_self, hx⟩
              · obtain ⟨x', hx', hz⟩ := hmem z hz
                exact ⟨x', List.mem_cons_of_mem x hx', hz⟩

/-- The types of a reference are bound by what is combined there, one for each
declared parameter. -/
theorem Walk.mem_of_bindings {caller : Node} {name : QualifiedName} {callable : Callable}
    {combined : Substitution} {bound : List (TypeParameter × Ty)}
    (h : bindings caller name callable combined = .ok bound) :
    bound.length = callable.typeParameters.length ∧ ∀ e ∈ bound, e ∈ combined.entries := by
  obtain ⟨hlength, hmem⟩ := mem_of_mapM_eq_ok h
  refine ⟨hlength.trans callable.length_parameters, fun e he => ?_⟩
  obtain ⟨p, -, hp⟩ := hmem e he
  cases ht : combined.get? p with
  | none =>
      simp only [ht] at hp
      cases hp
  | some t =>
      simp only [ht] at hp
      cases hp
      exact Substitution.mem_of_lookupEntry ht

/-- The type arguments of a node have the property `P`, and there are as many
as its callable declares parameters, if there are any. -/
def Node.Instantiates (P : Ty → Prop) (c : Callable) (n : Node) : Prop :=
  ∀ types, n.typeArguments = some types →
    types.length = c.typeParameters.length ∧ ∀ t ∈ types, P t

/-- A reference is resolved to a declared callable, at types that composition
makes from those of its chain. -/
theorem Site.instantiates_of_resolve {site : Site} {P : Ty → Prop} {r : Reference}
    {target : Option (List Ty) × Substitution} (hcombiner : site.combiner = Combiner.compose)
    (hP : ∀ t s, P t → s.Binds P → P (t.substitute s))
    (hchain : ∀ map ∈ r.chain site.resolutions, map.Binds P) (h : site.resolve r = .ok target)
    (kind : Variant) :
    ∃ c, site.find? r.name = some c ∧ (site.edge r.name target kind).callee.Instantiates P c := by
  rw [resolve, hcombiner] at h
  cases hcombined : Combiner.compose (r.chain site.resolutions) with
  | error e => simp [hcombined] at h
  | ok combined =>
      simp only [hcombined, Site.target] at h
      cases hc : site.find? r.name with
      | none => simp [hc] at h
      | some c =>
          simp only [hc] at h
          cases hbound : Walk.bindings site.caller r.name c combined with
          | error e => simp [hbound] at h
          | ok bound =>
              simp only [hbound, Except.ok.injEq] at h
              obtain ⟨hlength, hmem⟩ := Walk.mem_of_bindings hbound
              have hbinds := Combiner.binds_compose hP hchain hcombined
              refine ⟨c, rfl, fun types htypes => ?_⟩
              subst h
              simp only [Site.edge] at htypes
              split at htypes
              · cases htypes
                refine ⟨by rw [List.length_map, hlength], fun t ht => ?_⟩
                obtain ⟨e, he, rfl⟩ := List.mem_map.1 ht
                exact hbinds e (hmem e he)
              · cases htypes

/-! ## reached nodes -/

/-- The types that the expressions around the references of a program bind. -/
def Program.boundTypes (program : Program) : List Ty :=
  program.callables.flatMap fun c =>
    c.specializations.flatMap fun s =>
      (s.body?.getD []).references.flatMap fun r =>
        r.maps.flatMap fun map => map.entries.map (·.2)

/-- A type is flat if it is a parameter or mentions none. -/
def Ty.Flat (t : Ty) : Prop := (∃ p, t = .parameter p) ∨ ∀ p, t.mentions p = false

/-- Substituting bound types into flat ones makes no new types. -/
theorem Ty.Flat.substitute_mem {t : Ty} {s : Substitution} {types : List Ty} (h : t.Flat)
    (ht : t ∈ types) (hs : s.Binds (· ∈ types)) : t.substitute s ∈ types := by
  obtain ⟨p, rfl⟩ | h := h
  · rw [substitute]
    cases hp : s.get? p with
    | none => exact ht
    | some u => exact hs.of_get? hp
  · rw [substitute_of_not_mentions s t fun p _ => h p]
    exact ht

/-- The substitution of a node binds its type arguments. -/
theorem Node.StandsFor.binds {find? : QualifiedName → Option Callable} {n : Node}
    {s : Specialization} {resolutions : Substitution} {P : Ty → Prop}
    (h : n.StandsFor find? s resolutions)
    (hn : ∀ types, n.typeArguments = some types → ∀ t ∈ types, P t) : resolutions.Binds P := by
  obtain ⟨c, -, -, hresolutions⟩ := h
  cases htypes : n.typeArguments with
  | none =>
      rw [htypes] at hresolutions
      cases hresolutions
      exact Substitution.binds_empty P
  | some types =>
      rw [htypes, Callable.instantiate] at hresolutions
      split at hresolutions
      · cases hresolutions
        refine Substitution.binds_ofList fun e he => ?_
        exact hn types htypes e.2 (List.of_mem_zip he).2
      · cases hresolutions

namespace Builder

variable {b : Builder} {program : Program} {entryPoints : List QualifiedName} {n m : Node}
  {r : Substitution} {P : Ty → Prop}

/-- What a node emits instantiates a declared callable at types that
composition makes from those of the node and of the program. -/
theorem instantiates_of_emits (hcombiner : b.combiner = Combiner.compose)
    (hlimit : b.options.nodeLimit = none)
    (hP : ∀ t s, P t → s.Binds P → P (t.substitute s)) (hmaps : ∀ t ∈ program.boundTypes, P t)
    (hn : ∀ types, n.typeArguments = some types → ∀ t ∈ types, P t)
    (h : b.Emits program.find? n m r) :
    ∃ c, program.find? m.callable = some c ∧ m.Instantiates P c := by
  obtain ⟨s, resolutions, body, hs, hbody, -⟩ := id h
  have he := (emits_iff hlimit hs).1 h
  rw [emissions, hbody] at he
  obtain ⟨ref, href, target, kind, htarget, he⟩ := Site.mem_edges_emissions he
  obtain rfl : m = ((b.site program.find? n resolutions).edge ref.name target kind).callee :=
    congrArg Edge.callee he
  refine Site.instantiates_of_resolve hcombiner hP (fun map hmap => ?_) htarget kind
  obtain hmap | hmap := List.mem_append.1 hmap
  · intro e he
    obtain ⟨c, hc, htemplates, -⟩ := hs
    have hmem : s ∈ c.specializations := by
      have : s ∈ c.templates n.kind := by simp [htemplates]
      exact (List.mem_filter.1 this).1
    refine hmaps e.2 (List.mem_flatMap.2 ⟨c, Program.mem_of_find? hc, ?_⟩)
    refine List.mem_flatMap.2 ⟨s, hmem, List.mem_flatMap.2 ⟨ref, ?_, ?_⟩⟩
    · rw [hbody]
      exact href
    · exact List.mem_flatMap.2 ⟨map, hmap, List.mem_map.2 ⟨e, he, rfl⟩⟩
  · rw [List.mem_singleton.1 hmap]
    exact hs.binds hn

/-- A reached node is the body of an entry point, or it instantiates a
declared callable at types that composition makes from those of the program. -/
theorem Reached.instantiates (hcombiner : b.combiner = Combiner.compose)
    (hlimit : b.options.nodeLimit = none)
    (hP : ∀ t s, P t → s.Binds P → P (t.substitute s)) (hmaps : ∀ t ∈ program.boundTypes, P t)
    (h : b.Reached program.find? entryPoints n) :
    (n.callable ∈ entryPoints ∧ n.typeArguments = none) ∨
      ∃ c, program.find? n.callable = some c ∧ n.Instantiates P c := by
  induction h with
  | entry hname => exact .inl ⟨hname, rfl⟩
  | @step n m r hn hm ih =>
      refine .inr (instantiates_of_emits hcombiner hlimit hP hmaps (fun types htypes => ?_) hm)
      obtain ⟨-, hnone⟩ | ⟨c, -, hc⟩ := ih
      · rw [hnone] at htypes
        cases htypes
      · exact (hc types htypes).2

/-- There are finitely many nodes of given callables at given types. -/
theorem finite_nodes (names : List QualifiedName) (types : List Ty) (arity : Nat) :
    {n : Node | n.callable ∈ names ∧ ∀ ts, n.typeArguments = some ts →
      ts.length ≤ arity ∧ ∀ t ∈ ts, t ∈ types}.Finite := by
  have hlists : {ts : List Ty | ts.length ≤ arity ∧ ∀ t ∈ ts, t ∈ types}.Finite := by
    refine ((List.finite_length_le {t // t ∈ types} arity).image (List.map Subtype.val)).subset ?_
    rintro ts ⟨hlength, hts⟩
    lift ts to List {t // t ∈ types} using hts
    exact ⟨ts, by simpa using hlength, rfl⟩
  have hproduct := (List.finite_toSet names).prod
    ((List.finite_toSet Variant.all).prod ((hlists.image some).insert none))
  refine (hproduct.image fun x => (⟨x.1, x.2.1, x.2.2⟩ : Node)).subset ?_
  rintro ⟨name, kind, typeArguments⟩ ⟨hname, htypes⟩
  refine ⟨(name, kind, typeArguments), ⟨hname, Variant.mem_all kind, ?_⟩, rfl⟩
  cases typeArguments with
  | none => exact .inl rfl
  | some ts => exact .inr ⟨ts, htypes ts rfl, rfl⟩

/-- In a program that binds flat types only, finitely many nodes are reached. -/
theorem finite_reached_of_flat (hcombiner : b.combiner = Combiner.compose)
    (hlimit : b.options.nodeLimit = none) (hflat : ∀ t ∈ program.boundTypes, t.Flat) :
    {n | b.Reached program.find? entryPoints n}.Finite := by
  have hfinite := finite_nodes (entryPoints ++ program.callables.map (·.name)) program.boundTypes
    ((program.callables.map (·.typeParameters.length)).max?.getD 0)
  refine hfinite.subset fun n hn => ?_
  obtain ⟨hname, hnone⟩ | ⟨c, hc, hn⟩ := Reached.instantiates hcombiner hlimit
    (fun t s ht hs => (hflat t ht).substitute_mem ht hs) (fun t ht => ht) hn
  · refine ⟨List.mem_append_left _ hname, fun ts hts => ?_⟩
    rw [hnone] at hts
    cases hts
  · have hmem := Program.mem_of_find? hc
    refine ⟨List.mem_append_right _ ?_, fun ts hts => ?_⟩
    · exact List.mem_map.2 ⟨c, hmem, Program.name_of_find? hc⟩
    · obtain ⟨hlength, hts⟩ := hn ts hts
      refine ⟨?_, hts⟩
      rw [hlength]
      exact List.le_max?_getD_of_mem (List.mem_map.2 ⟨c, hmem, rfl⟩)

end Builder

end CallGraphs
