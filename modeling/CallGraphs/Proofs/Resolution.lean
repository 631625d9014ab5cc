import CallGraphs.Proofs.Absorption
import CallGraphs.Proofs.Processing

/-!
# CallGraphs.Proofs.Resolution

What a reference is resolved to: the callable of its name, and for each
declared parameter the type that the combined substitution binds.  Of a
callable only its signature matters here, its name and its type parameters.

* `resolve_eq_ok_iff`, `resolve_error_cases` — when a reference is resolved, and to what;
* `exists_resolve_of_emissions` — the references of a walk;
* `mem_edges_emissions_iff` — and their edges;
* `bindings_eq_ok_iff` — the types of the declared parameters;
* `emissions_congr` — what a walk emits depends on signatures only.
-/

namespace CallGraphs

/-! ## signatures -/

/-- What a reference sees of a callable. -/
def Callable.signature (c : Callable) : QualifiedName × List String := (c.name, c.typeParameters)

/-- The parameters of a callable belong to its signature. -/
theorem Callable.parameters_eq_of_signature {c d : Callable} (h : d.signature = c.signature) :
    d.parameters = c.parameters := by
  obtain ⟨hname, hparameters⟩ := Prod.mk.inj h
  rw [Callable.parameters, Callable.parameters, hname, hparameters]

theorem Callable.isGeneric_eq_of_signature {c d : Callable} (h : d.signature = c.signature) :
    d.isGeneric = c.isGeneric := by
  rw [Callable.isGeneric, Callable.isGeneric, (Prod.mk.inj h).2]

namespace Walk

variable {caller : Node} {name : QualifiedName} {c d : Callable} {combined : Substitution}
  {bound : List (TypeParameter × Ty)}

/-! ## bound parameters -/

/-- Parameters with the types that they are bound to. -/
def boundTypes (parameters : List TypeParameter) (combined : Substitution) :
    List (TypeParameter × Ty) :=
  parameters.map fun p => (p, (combined.get? p).getD .missing)

/-- Either every declared parameter is bound, and gets the type that is
combined for it, or one is not. -/
theorem bindings_cases (caller : Node) (name : QualifiedName) (c : Callable)
    (combined : Substitution) :
    (bindings caller name c combined = .ok (boundTypes c.parameters combined) ∧
      ∀ p ∈ c.parameters, (combined.get? p).isSome) ∨
    ∃ p ∈ c.parameters, combined.get? p = none ∧
      bindings caller name c combined =
        .error (.unresolvedTypeParameter name.text p.name caller.text) := by
  rw [bindings]
  induction c.parameters with
  | nil => exact .inl ⟨rfl, by simp⟩
  | cons p ps ih =>
      rw [List.mapM_cons]
      cases hp : combined.get? p with
      | none => exact .inr ⟨p, List.mem_cons_self, hp, rfl⟩
      | some t =>
          obtain ⟨hok, hbound⟩ | ⟨q, hq, hnone, herror⟩ := ih
          · refine .inl ⟨?_, List.forall_mem_cons.2 ⟨by simp [hp], hbound⟩⟩
            rw [hok, boundTypes, boundTypes, List.map_cons, hp]
            rfl
          · refine .inr ⟨q, List.mem_cons_of_mem p hq, hnone, ?_⟩
            rw [herror]
            rfl

/-- When all declared parameters get a type, and which. -/
theorem bindings_eq_ok_iff : bindings caller name c combined = .ok bound ↔
    (∀ p ∈ c.parameters, (combined.get? p).isSome) ∧ bound = boundTypes c.parameters combined := by
  obtain ⟨hok, hbound⟩ | ⟨p, hp, hnone, herror⟩ := bindings_cases caller name c combined
  · rw [hok, Except.ok.injEq]
    exact ⟨fun h => ⟨hbound, h.symm⟩, fun h => h.2.symm⟩
  · rw [herror]
    refine ⟨fun h => ?_, fun h => ?_⟩
    · cases h
    · have := h.1 p hp
      simp [hnone] at this

/-- The types of bound parameters are bound. -/
theorem forall_boundTypes {P : Ty → Prop} {parameters : List TypeParameter}
    (hcombined : combined.Binds P) (hbound : ∀ p ∈ parameters, (combined.get? p).isSome) :
    ∀ b ∈ boundTypes parameters combined, P b.2 := by
  intro b hb
  obtain ⟨p, hp, rfl⟩ := List.mem_map.1 hb
  obtain ⟨t, ht⟩ := Option.isSome_iff_exists.1 (hbound p hp)
  rw [ht]
  exact hcombined.of_get? ht

/-- Bindings of callables of the same signature are the same. -/
theorem bindings_congr (h : d.signature = c.signature) :
    bindings caller name d combined = bindings caller name c combined := by
  rw [bindings, bindings, Callable.parameters_eq_of_signature h]

end Walk

/-! ## references -/

/-- The type arguments of a reference to a callable and the substitution of
its edges, when the given one is combined there. -/
def Callable.targetAt (c : Callable) (combined : Substitution) : Option (List Ty) × Substitution :=
  let bound := Walk.boundTypes c.parameters combined
  (if c.isGeneric then some (bound.map (·.2)) else none, Substitution.ofList bound)

namespace Site

variable {site site' : Site} {r : Reference} {target : Option (List Ty) × Substitution}

/-- When a reference is resolved, and to what. -/
theorem resolve_eq_ok_iff : site.resolve r = .ok target ↔
    ∃ combined c, site.combiner (r.chain site.resolutions) = .ok combined ∧
      site.find? r.name = some c ∧ (∀ p ∈ c.parameters, (combined.get? p).isSome) ∧
      target = c.targetAt combined := by
  rw [resolve]
  cases site.combiner (r.chain site.resolutions) with
  | error e => simp
  | ok combined =>
      dsimp only
      rw [Site.target]
      cases site.find? r.name with
      | none => simp
      | some c =>
          dsimp only
          obtain ⟨hok, hbound⟩ | ⟨p, hp, hnone, herror⟩ :=
            Walk.bindings_cases site.caller r.name c combined
          · rw [hok]
            dsimp only
            rw [Except.ok.injEq]
            refine ⟨fun h => ⟨combined, c, rfl, rfl, hbound, h.symm⟩, ?_⟩
            rintro ⟨combined', c', hcombined, hc, -, htarget⟩
            cases hcombined
            cases hc
            exact htarget.symm
          · rw [herror]
            dsimp only
            constructor
            · intro h
              cases h
            · rintro ⟨combined', c', hcombined, hc, hbound, -⟩
              cases hcombined
              cases hc
              have := hbound p hp
              simp [hnone] at this

/-- Why a reference is not resolved. -/
theorem resolve_error_cases {e : BuildError} (h : site.resolve r = .error e) :
    site.combiner (r.chain site.resolutions) = .error e ∨
    (site.find? r.name = none ∧ e = .undeclaredCallable r.name.text) ∨
    ∃ c, ∃ p ∈ c.parameters, site.find? r.name = some c ∧
      e = .unresolvedTypeParameter r.name.text p.name site.caller.text := by
  rw [resolve] at h
  cases hcombined : site.combiner (r.chain site.resolutions) with
  | error err =>
      rw [hcombined] at h
      cases h
      exact .inl rfl
  | ok combined =>
      rw [hcombined] at h
      dsimp only at h
      rw [Site.target] at h
      cases hc : site.find? r.name with
      | none =>
          rw [hc] at h
          cases h
          exact .inr (.inl ⟨rfl, rfl⟩)
      | some c =>
          rw [hc] at h
          dsimp only at h
          obtain ⟨hok, -⟩ | ⟨p, hp, -, herror⟩ := Walk.bindings_cases site.caller r.name c combined
          · rw [hok] at h
            cases h
          · rw [herror] at h
            cases h
            exact .inr (.inr ⟨c, p, hp, rfl, rfl⟩)

/-- Where references emit no error, each of them is resolved. -/
theorem exists_resolve_of_emissions {rs : List Reference} (h : (site.emissions rs).error = none)
    (hr : r ∈ rs) : ∃ target, site.resolve r = .ok target := by
  obtain ⟨-, -, hall⟩ | ⟨e, done, r', rest, -, herror, -⟩ := site.emissions_cases rs
  · exact hall r hr
  · rw [h] at herror
    cases herror

/-- Where all references are resolved, their edges are those of each of
them. -/
theorem mem_edges_emissions_iff {rs : List Reference} (h : (site.emissions rs).error = none) {e : Edge} :
    e ∈ (site.emissions rs).edges ↔
      ∃ r ∈ rs, ∃ target, site.resolve r = .ok target ∧
        ∃ kind ∈ r.variants, e = site.edge r.name target kind := by
  obtain ⟨-, hvisited, -⟩ | ⟨err, done, r, rest, -, herror, -⟩ := site.emissions_cases rs
  · rw [edges_emissions, hvisited, List.mem_flatMap]
    refine exists_congr fun r => and_congr_right fun _ => ?_
    cases site.resolve r with
    | error err => simp
    | ok target => simp [eq_comm]
  · rw [h] at herror
    cases herror

/-- References are resolved in the same way where names are declared with the
same signatures. -/
theorem resolve_congr (hcombiner : site'.combiner = site.combiner)
    (hcaller : site'.caller = site.caller) (hresolutions : site'.resolutions = site.resolutions)
    (hfind : (site'.find? r.name).map Callable.signature =
      (site.find? r.name).map Callable.signature) :
    site'.resolve r = site.resolve r := by
  rw [resolve, resolve, hcombiner, hresolutions]
  cases site.combiner (r.chain site.resolutions) with
  | error e => rfl
  | ok combined =>
      dsimp only
      rw [Site.target, Site.target, hcaller]
      cases hd : site'.find? r.name with
      | none =>
          cases hc : site.find? r.name with
          | none => rfl
          | some c => simp [hd, hc] at hfind
      | some d =>
          cases hc : site.find? r.name with
          | none => simp [hd, hc] at hfind
          | some c =>
              have hsame : d.signature = c.signature := by simpa [hd, hc] using hfind
              dsimp only
              rw [Walk.bindings_congr hsame, Callable.isGeneric_eq_of_signature hsame]

/-- So a walk emits the same there. -/
theorem emissions_congr {rs : List Reference} (hcombiner : site'.combiner = site.combiner)
    (hcaller : site'.caller = site.caller) (hresolutions : site'.resolutions = site.resolutions)
    (hfind : ∀ r ∈ rs, (site'.find? r.name).map Callable.signature =
      (site.find? r.name).map Callable.signature) :
    site'.emissions rs = site.emissions rs := by
  induction rs with
  | nil => rfl
  | cons r rs ih =>
      obtain ⟨hfirst, hrest⟩ := List.forall_mem_cons.1 hfind
      have hedge : site'.edge r.name = site.edge r.name := by
        funext target kind
        rw [edge, edge, hcaller]
      rw [emissions, emissions, resolve_congr hcombiner hcaller hresolutions hfirst, ih hrest, hedge]

end Site

end CallGraphs
