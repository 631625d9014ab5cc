import CallGraphs.Proofs.Concreteness
import CallGraphs.Proofs.Declarations
import CallGraphs.Proofs.Failures

/-!
# CallGraphs.Proofs.PolymorphicRecursion

When a construction on demand is refused because substitutions cannot be
combined, in a program whose references bind the parameters of their callables
and nothing else is bound.  A reference binds parameters of the callee, and
its caller's parameters are bound by the node.  These meet only where a
callable refers to itself, and there a composition takes them for a
contradiction unless they agree: a callable may refer to itself at its own type
arguments only.

* `compose_cases` — two maps combine unless a parameter has two types;
* `resolve_of_not_clashes`, `resolve_of_clashes` — a reference of a concrete node;
* `build_refuses_polymorphic_recursion` — the constructions that are refused.
-/

namespace CallGraphs

/-! ## annotated programs -/

/-- The errors that come up when substitutions are combined or when types are
read off their combination. -/
def BuildError.OfCombination : BuildError → Prop
  | .resolutionConflict _ _ _ => True
  | .selfReference _ _ => True
  | .unresolvedTypeParameter _ _ _ => True
  | .undeclaredCallable _ => False
  | .specializationNotFound _ _ => False
  | .ambiguousSpecialization _ _ _ => False
  | .typeArgumentArity _ _ _ => False
  | .nodeLimitExceeded _ => False

/-- A reference is annotated if its own expression binds exactly the declared
parameters of its callable, and no expression around it binds anything. -/
def Reference.Annotated (find? : QualifiedName → Option Callable) (r : Reference) : Prop :=
  ∃ own outer, r.frames = own :: outer ∧ (∀ frame ∈ outer, frame.resolutions = ∅) ∧
    ∀ p, (own.resolutions.get? p).isSome ↔ ∃ c, find? r.name = some c ∧ p ∈ c.parameters

/-- All references of a program are annotated. -/
def Program.Annotated (program : Program) : Prop :=
  ∀ c ∈ program.callables, ∀ s ∈ c.specializations, ∀ r ∈ s.references,
    r.Annotated program.find?

/-- A reference clashes with the substitution of its caller if it binds a
parameter to another type. -/
def Reference.Clashes (r : Reference) (caller : Substitution) : Prop :=
  ∃ map ∈ r.maps, ∃ p t u, map.get? p = some t ∧ caller.get? p = some u ∧ t.substitute caller ≠ u

/-- A node is polymorphically recursive if it refers to its own callable at
other type arguments. -/
def Node.PolymorphicallyRecursive (find? : QualifiedName → Option Callable) (n : Node) : Prop :=
  ∃ s resolutions, n.StandsFor find? s resolutions ∧
    ∃ r ∈ s.references, r.name = n.callable ∧ r.Clashes resolutions

/-- A reference that has nothing waiting for it but what it binds itself, for
the declared parameters of its callable. -/
structure Reference.BindsOnly (find? : QualifiedName → Option Callable) (r : Reference)
    (own : Substitution) : Prop where
  frame : ∃ frame ∈ r.frames, frame.resolutions = own
  maps : r.maps = if own.isEmpty then [] else [own]
  parameters : ∀ p, (own.get? p).isSome ↔ ∃ c, find? r.name = some c ∧ p ∈ c.parameters

/-- An annotated reference in a body has nothing else waiting for it. -/
theorem Reference.Annotated.exists_bindsOnly {find? : QualifiedName → Option Callable}
    {s : Specialization} {r : Reference} (h : r.Annotated find?) (hr : r ∈ s.references) :
    ∃ own, r.BindsOnly find? own := by
  obtain ⟨frame, outer, hframes, houter, hparameters⟩ := h
  obtain ⟨own, outer', hframes'⟩ := Scope.frames_of_mem_references hr
  obtain ⟨rfl, rfl⟩ := List.cons.inj (hframes.symm.trans hframes')
  refine ⟨own, ⟨⟨own, 0⟩, by simp [hframes], rfl⟩, ?_, hparameters⟩
  have hrest : ∀ frame ∈ outer, frame.earlier = 0 → frame.resolutions.isEmpty = true := by
    intro frame hframe _
    rw [houter frame hframe, Substitution.isEmpty_empty]
  rw [maps, hframes]
  cases hown : own.isEmpty <;> simpa [hown] using hrest

theorem Reference.BindsOnly.eq_of_mem_maps {find? : QualifiedName → Option Callable}
    {r : Reference} {own map : Substitution} (h : r.BindsOnly find? own) (hmap : map ∈ r.maps) :
    map = own := by
  rw [h.maps] at hmap
  split at hmap
  · exact absurd hmap List.not_mem_nil
  · exact List.mem_singleton.1 hmap

/-! ## two maps -/

namespace Combiner

variable {own caller : Substitution} {parameters : List TypeParameter}

/-- An empty map may be left out of a chain. -/
theorem foldlM_absorb_own (own caller : Substitution) :
    ((if own.isEmpty then [] else [own]) ++ [caller]).foldlM absorb ∅ = absorb own caller := by
  cases hown : own.isEmpty with
  | true =>
      obtain rfl := Substitution.isEmpty_iff.1 hown
      show [caller].foldlM absorb ∅ = absorb ∅ caller
      simp
  | false =>
      show [own, caller].foldlM absorb ∅ = absorb own caller
      rw [List.foldlM_cons, empty_absorb]
      show [caller].foldlM absorb own = absorb own caller
      simp

/-- A map over given parameters and one of closed types for these combine
unless they bind a parameter to two types. -/
theorem compose_cases (hown : own.Binds (Ty.Over parameters))
    (hbound : ∀ p ∈ parameters, (caller.get? p).isSome) (hcaller : caller.Binds Ty.Closed) :
    (∃ s, compose ((if own.isEmpty then [] else [own]) ++ [caller]) = .ok s ∧
      (∀ p, (own.get? p).isSome → (s.get? p).isSome) ∧
      ∀ p t u, own.get? p = some t → caller.get? p = some u → t.substitute caller = u) ∨
    ∃ p t u, compose ((if own.isEmpty then [] else [own]) ++ [caller]) =
        .error (.resolutionConflict p.text (t.substitute caller).text u.text) ∧
      own.get? p = some t ∧ caller.get? p = some u ∧ t.substitute caller ≠ u := by
  have hclosed {t : Ty} (ht : t.Over parameters) : (t.substitute caller).Closed :=
    ht.closed_substitute hbound hcaller
  obtain ⟨s, hs, hview, hagree⟩ | ⟨p, t, u, herror, ht, hu, hnot⟩ := absorb_cases own caller
  · refine .inl ⟨s, ?_, fun p hp => ?_, fun p t u ht hu => ?_⟩
    · rw [compose_eq_ok_iff, foldlM_absorb_own]
      exact ⟨hs, checkCircular_of_binds (binds_of_absorb (hown.apply fun _ => hclosed) hcaller hs)⟩
    · obtain ⟨t, ht⟩ := Option.isSome_iff_exists.1 hp
      rw [hview, ht, Option.map_some]
      cases caller.get? p <;> simp [added]
    · exact (hagree p t u ht hu).of_ne ((hclosed (hown.of_get? ht)).ne_parameter p)
        ((hcaller.of_get? hu).ne_parameter p)
  · refine .inr ⟨p, t, u, ?_, ht, hu, fun h => hnot (.inl h)⟩
    rw [compose, foldlM_absorb_own, herror]
    rfl

end Combiner

/-! ## errors -/

/-- A node is refused for no reason of combination. -/
theorem Node.Refused.not_ofCombination {find? : QualifiedName → Option Callable} {n : Node}
    {e : BuildError} (h : n.Refused find? e) : ¬ e.OfCombination := by
  cases h with
  | undeclared => exact id
  | template _ htemplate =>
      rw [Callable.template] at htemplate
      split at htemplate <;> cases htemplate <;> exact id
  | arguments _ harguments =>
      unfold Callable.instantiate at harguments
      split at harguments
      · cases harguments
      · split at harguments <;> cases harguments
        exact id

/-! ## references of concrete nodes -/

namespace Site

variable {site : Site} {r : Reference} {own : Substitution} {parameters : List TypeParameter}
  {e : BuildError}

variable (hcombiner : site.combiner = Combiner.compose) (hr : r.BindsOnly site.find? own)
  (hown : own.Binds (Ty.Over parameters)) (hbound : ∀ p ∈ parameters, (site.resolutions.get? p).isSome)
  (hclosed : site.resolutions.Binds Ty.Closed)

include hcombiner hr hown hbound hclosed

/-- What is combined at such a reference of a concrete node: what it binds and
what its caller does, unless they clash. -/
theorem combiner_cases :
    (¬ r.Clashes site.resolutions ∧ ∃ s, site.combiner (r.chain site.resolutions) = .ok s ∧
      ∀ c, site.find? r.name = some c → ∀ p ∈ c.parameters, (s.get? p).isSome) ∨
    r.Clashes site.resolutions ∧ ∃ p t u, site.combiner (r.chain site.resolutions) =
      .error (.resolutionConflict p t u) := by
  rw [hcombiner, Reference.chain, hr.maps]
  obtain ⟨s, hs, hsome, hagree⟩ | ⟨p, t, u, herror, ht, hu, hne⟩ :=
    Combiner.compose_cases hown hbound hclosed
  · refine .inl ⟨?_, s, hs, fun c hc p hp => hsome p ((hr.parameters p).2 ⟨c, hc, hp⟩)⟩
    rintro ⟨map, hmap, p, t, u, ht, hu, hne⟩
    obtain rfl := hr.eq_of_mem_maps hmap
    exact hne (hagree p t u ht hu)
  · refine .inr ⟨⟨own, ?_, p, t, u, ht, hu, hne⟩, _, _, _, herror⟩
    have hempty : own.isEmpty = false := by
      rw [← Bool.not_eq_true, Substitution.isEmpty_iff]
      rintro rfl
      rw [Substitution.get?_empty] at ht
      cases ht
    simp [hr.maps, hempty]

/-- A reference that clashes is refused as a conflict. -/
theorem resolve_of_clashes (h : r.Clashes site.resolutions) :
    ∃ p t u, site.resolve r = .error (.resolutionConflict p t u) := by
  obtain ⟨hnot, -⟩ | ⟨-, p, t, u, herror⟩ := combiner_cases hcombiner hr hown hbound hclosed
  · exact absurd h hnot
  · exact ⟨p, t, u, by rw [resolve, herror]⟩

/-- One that does not is refused for no reason of combination. -/
theorem resolve_of_not_clashes (h : ¬ r.Clashes site.resolutions)
    (herror : site.resolve r = .error e) : ¬ e.OfCombination := by
  obtain ⟨-, s, hs, hall⟩ | ⟨hclashes, -⟩ := combiner_cases hcombiner hr hown hbound hclosed
  · rw [resolve, hs] at herror
    dsimp only at herror
    rw [target] at herror
    cases hc : site.find? r.name with
    | none =>
        rw [hc] at herror
        cases herror
        exact id
    | some c =>
        have hbindings : Walk.bindings site.caller r.name c s =
            .ok (Walk.boundTypes c.parameters s) :=
          Walk.bindings_eq_ok_iff.2 ⟨hall c hc, rfl⟩
        simp only [hc, hbindings] at herror
        cases herror
  · exact absurd hclashes h

end Site

namespace Builder

variable {b : Builder} {find? : QualifiedName → Option Callable} {program : Program}
  {entryPoints : List QualifiedName} {n : Node} {s : Specialization}
  {resolutions own : Substitution} {r : Reference} {e : BuildError}

/-- Only a reference to the own callable of a node can clash. -/
theorem name_eq_of_clashes (hr : r.BindsOnly program.find? own)
    (hs : n.StandsFor program.find? s resolutions) (h : r.Clashes resolutions) :
    r.name = n.callable := by
  obtain ⟨c, hc, -, hresolutions⟩ := hs
  obtain ⟨map, hmap, p, t, u, ht, hu, -⟩ := h
  obtain rfl := hr.eq_of_mem_maps hmap
  have horigin {d : Callable} (hp : p ∈ d.parameters) : p.origin = d.name := by
    obtain ⟨name, -, rfl⟩ := List.mem_map.1 hp
    rfl
  have hdeclared : p ∈ c.parameters := by
    have hgiven : n.typeArguments ≠ none := by
      intro hnone
      rw [hnone] at hresolutions
      cases hresolutions
      rw [Substitution.get?_empty] at hu
      cases hu
    obtain ⟨types, htypes⟩ := Option.ne_none_iff_exists'.1 hgiven
    rw [htypes] at hresolutions
    exact (Callable.isSome_get?_of_instantiate hresolutions).1 (by simp [hu])
  obtain ⟨d, hd, hp⟩ := (hr.parameters p).1 (by simp [ht])
  calc r.name = d.name := (Program.name_of_find? hd).symm
    _ = p.origin := (horigin hp).symm
    _ = c.name := horigin hdeclared
    _ = n.callable := Program.name_of_find? hc

/-! ## where errors come from -/

/-- A reached node is concrete. -/
theorem Reached.concrete (hcombiner : b.combiner = Combiner.compose)
    (hlimit : b.options.nodeLimit = none) (hscoped : program.Scoped)
    (hentries : program.NonGeneric entryPoints) (h : b.Reached program.find? entryPoints n) :
    n.Concrete program.find? := by
  induction h with
  | entry hname => exact concrete_entry hentries hname
  | step _ hm ih =>
      have ⟨s, resolutions, _, hs, _⟩ := hm
      exact (concrete_of_mem_emissions hcombiner hscoped ih hs ((emits_iff hlimit hs).1 hm)).1

/-- An error of combination comes up at a reference. -/
theorem Refuses.exists_reference (h : b.Refuses find? n e) (he : e.OfCombination) :
    ∃ s resolutions, n.StandsFor find? s resolutions ∧
      ∃ r ∈ s.references, (b.site find? n resolutions).resolve r = .error e := by
  cases h with
  | node hrefused => exact absurd he hrefused.not_ofCombination
  | reference hs hr hresolve => exact ⟨_, _, hs, _, hr, hresolve⟩

/-! ## constructions -/

/-- What is known of a reference of a reached node. -/
theorem resolve_of_reached (hcombiner : b.combiner = Combiner.compose)
    (hlimit : b.options.nodeLimit = none) (hannotated : program.Annotated)
    (hscoped : program.Scoped) (hentries : program.NonGeneric entryPoints)
    (hn : b.Reached program.find? entryPoints n) (hs : n.StandsFor program.find? s resolutions)
    (hr : r ∈ s.references) :
    (r.Clashes resolutions → r.name = n.callable ∧
      ∃ p t u, (b.site program.find? n resolutions).resolve r = .error (.resolutionConflict p t u)) ∧
    ∀ e, (b.site program.find? n resolutions).resolve r = .error e → e.OfCombination →
      r.Clashes resolutions := by
  obtain ⟨c, hc, hmem, hspecialization, hresolutions⟩ := hs.exists_callable
  obtain ⟨hclosed, hbound⟩ := (hn.concrete hcombiner hlimit hscoped hentries).binds hc hresolutions
  obtain ⟨own, hown⟩ := (hannotated c hmem s hspecialization r hr).exists_bindsOnly hr
  obtain ⟨frame, hframe, rfl⟩ := hown.frame
  have hover := hscoped c hmem s hspecialization r hr frame hframe
  refine ⟨fun h => ⟨name_eq_of_clashes hown hs h, ?_⟩, fun e herror he => ?_⟩
  · exact Site.resolve_of_clashes hcombiner hown hover hbound hclosed h
  · by_contra h
    exact Site.resolve_of_not_clashes hcombiner hown hover hbound hclosed h herror he

/-- Constructions are refused for polymorphic recursion, and for no other
reason of combination.  In a program whose references bind the parameters of
their callables, to types over those of the callable around them, and in which
nothing else is bound, a construction from entry points without parameters
meets an error of combination only as a conflict at a reached node that refers
to its own callable at other type arguments.  At every such node there is one,
so that no graph is built. -/
theorem build_refuses_polymorphic_recursion (program : Program)
    (entryPoints : List QualifiedName) (options : Options) (hannotated : program.Annotated)
    (hscoped : program.Scoped) (hentries : program.NonGeneric entryPoints)
    (hnonempty : entryPoints ≠ []) :
    let b : Builder := ⟨Combiner.compose, options⟩
    let reached : Set Node := {n | b.unlimited.Reached program.find? entryPoints n}
    (∀ looks e, (b.build program entryPoints looks).outcome = .failed e → e.OfCombination →
      (∃ p t u, e = .resolutionConflict p t u) ∧
        ∃ n ∈ reached, n.PolymorphicallyRecursive program.find?) ∧
    ∀ n ∈ reached, n.PolymorphicallyRecursive program.find? →
      (∃ s resolutions, n.StandsFor program.find? s resolutions ∧ ∃ r ∈ s.references,
        ∃ p t u, (b.site program.find? n resolutions).resolve r =
          .error (.resolutionConflict p t u)) ∧
      ∀ looks g st, (b.build program entryPoints looks).outcome ≠ .built g st := by
  intro b reached
  have hresolve {n : Node} {s : Specialization} {resolutions : Substitution} {r : Reference}
      (hn : n ∈ reached) (hs : n.StandsFor program.find? s resolutions) (hr : r ∈ s.references) :=
    resolve_of_reached (b := b.unlimited) rfl rfl hannotated hscoped hentries hn hs hr
  refine ⟨fun looks e hfailed he => ?_, fun n hn hrecursive => ?_⟩
  · obtain ⟨n, hn, hrefuses⟩ :=
      exists_refuses_of_failed hnonempty (by rintro limit rfl; exact he) hfailed
    obtain ⟨s, resolutions, hs, r, hr, herror⟩ := hrefuses.exists_reference he
    have hclashes := (hresolve hn hs hr).2 e herror he
    obtain ⟨hname, x, t, u, hconflict⟩ := (hresolve hn hs hr).1 hclashes
    refine ⟨⟨x, t, u, ?_⟩, n, hn, s, resolutions, hs, r, hr, hname, hclashes⟩
    exact Except.error.inj (herror.symm.trans hconflict)
  · obtain ⟨s, resolutions, hs, r, hr, -, hclashes⟩ := hrecursive
    obtain ⟨-, x, t, u, hconflict⟩ := (hresolve hn hs hr).1 hclashes
    refine ⟨⟨s, resolutions, hs, r, hr, x, t, u, hconflict⟩, fun looks g st hbuilt => ?_⟩
    obtain ⟨q, hq, hpending, -, -⟩ := exists_of_built hnonempty rfl (built_unlimited hbuilt)
    have hgood := hq.good n ((hq.mem_resolved_iff hpending).2 hn)
    have herror := (good_iff rfl hs).1 hgood
    rw [emissions_eq] at herror
    obtain ⟨target, htarget⟩ := Site.exists_resolve_of_emissions herror hr
    rw [hconflict] at htarget
    cases htarget

end Builder

/-! ## direct recursion -/

namespace SelfRecursion

open Substitution MutualRecursion

/-- A body that calls `A` at a type. -/
def callBody (t : Ty) : Scope :=
  [.expression
    ⟨.call ⟨.identifier (.callable (operationName "A")), .missing, single parameterOfA t⟩
      ⟨.literal .unit, .missing, ∅⟩, .missing, ∅⟩]

/-- A program in which `Main` calls `A` at a type without parameters, and `A`
calls itself at another type. -/
def program (start step : Ty) : Program :=
  ⟨[⟨"Test",
    [operation "Main" [] (callBody start), operation "A" ["T"] (callBody step)]⟩]⟩

variable {start step : Ty} {c : Callable} {s : Specialization} {r : Reference}

/-- The reference of such a body. -/
theorem eq_of_mem_references (hc : c ∈ (program start step).callables)
    (hs : s ∈ c.specializations) (hr : r ∈ s.references) :
    (c = operation "Main" [] (callBody start) ∧
      r = ⟨operationName "A", [.callee], [⟨single parameterOfA start, 0⟩, ⟨∅, 0⟩]⟩) ∨
    c = operation "A" ["T"] (callBody step) ∧
      r = ⟨operationName "A", [.callee], [⟨single parameterOfA step, 0⟩, ⟨∅, 0⟩]⟩ := by
  obtain rfl | hc := List.mem_cons.1 hc
  · obtain rfl := List.mem_singleton.1 hs
    exact .inl ⟨rfl, List.mem_singleton.1 hr⟩
  · obtain rfl := List.mem_singleton.1 hc
    obtain rfl := List.mem_singleton.1 hs
    exact .inr ⟨rfl, List.mem_singleton.1 hr⟩

theorem find?_a : (program start step).find? (operationName "A") =
    some (operation "A" ["T"] (callBody step)) := rfl

theorem annotated_program : (program start step).Annotated := by
  have hannotated (t : Ty) : Reference.Annotated (program start step).find?
      ⟨operationName "A", [.callee], [⟨single parameterOfA t, 0⟩, ⟨∅, 0⟩]⟩ := by
    refine ⟨_, _, rfl, by simp, fun p => ?_⟩
    rw [get?_single]
    constructor
    · intro hp
      refine ⟨_, find?_a, ?_⟩
      by_cases h : p = parameterOfA
      · exact List.mem_singleton.2 h
      · simp [h] at hp
    · rintro ⟨c, hc, hp⟩
      obtain rfl := Option.some.inj (find?_a.symm.trans hc)
      simp [List.mem_singleton.1 hp, parameterOfA, operation]
  intro c hc s hs r hr
  obtain ⟨-, rfl⟩ | ⟨-, rfl⟩ := eq_of_mem_references hc hs hr
  · exact hannotated start
  · exact hannotated step

theorem scoped_program (hstart : start.Closed) (hstep : step.Over [parameterOfA]) :
    (program start step).Scoped := by
  intro c hc s hs r hr frame hframe
  obtain ⟨rfl, rfl⟩ | ⟨rfl, rfl⟩ := eq_of_mem_references hc hs hr
  · obtain rfl | hframe := List.mem_cons.1 hframe
    · exact binds_single _ fun p hp => by simp [hstart p] at hp
    · obtain rfl := List.mem_singleton.1 hframe
      exact binds_empty _
  · obtain rfl | hframe := List.mem_cons.1 hframe
    · exact binds_single _ hstep
    · obtain rfl := List.mem_singleton.1 hframe
      exact binds_empty _

theorem nonGeneric_main : (program start step).NonGeneric [operationName "Main"] := by
  intro name hname c hc
  obtain rfl := List.mem_singleton.1 hname
  cases hc
  rfl

end SelfRecursion

namespace Builder

/-- If `A` calls itself at its own parameter, no error of combination comes
up. -/
theorem build_accepts_identity_recursion :
    let program := SelfRecursion.program (.primitive .bool) (.parameter MutualRecursion.parameterOfA)
    let entryPoints := [MutualRecursion.operationName "Main"]
    program.Annotated ∧ program.Scoped ∧ program.NonGeneric entryPoints ∧ entryPoints ≠ [] ∧
    ∀ looks e, (standard.build program entryPoints looks).outcome = .failed e →
      ¬ e.OfCombination := by
  intro program entryPoints
  have hscoped : program.Scoped :=
    SelfRecursion.scoped_program (fun _ => rfl) (Ty.over_parameter _)
  have hentries : entryPoints ≠ [] := List.cons_ne_nil _ _
  refine ⟨SelfRecursion.annotated_program, hscoped, SelfRecursion.nonGeneric_main, hentries,
    fun looks e hfailed he => ?_⟩
  obtain ⟨-, n, -, s, resolutions, hs, r, hr, hname, map, hmap, p, t, u, ht, hu, hne⟩ :=
    (build_refuses_polymorphic_recursion program entryPoints standard.options
      SelfRecursion.annotated_program hscoped SelfRecursion.nonGeneric_main hentries).1
      looks e hfailed he
  obtain ⟨c, hc, hmem, hspecialization, -⟩ := hs.exists_callable
  obtain ⟨rfl, rfl⟩ | ⟨-, rfl⟩ := SelfRecursion.eq_of_mem_references hmem hspecialization hr
  · exact absurd ((Program.name_of_find? hc).trans hname.symm) (by decide)
  · -- the own binding of `A` is that of its caller
    obtain rfl := List.mem_singleton.1 hmap
    rw [Substitution.get?_single] at ht
    by_cases hp : p = MutualRecursion.parameterOfA
    · subst hp
      cases (if_pos rfl).symm.trans ht
      exact hne (by simp [Ty.substitute, hu])
    · cases (if_neg hp).symm.trans ht

/-- If `A` calls itself at integers and is called at truth values, the two are
taken for a contradiction.  Without entry points the same program is built. -/
theorem polymorphic_recursion_refused :
    let program := SelfRecursion.program (.primitive .bool) (.primitive .int)
    let entryPoints := [MutualRecursion.operationName "Main"]
    program.Distinct ∧ program.Annotated ∧ program.Scoped ∧ program.NonGeneric entryPoints ∧
    entryPoints ≠ [] ∧
    (standard.build program entryPoints 3).outcome =
      .failed (.resolutionConflict "Test.A.'T" "Int" "Bool") ∧
    ∃ g st, (standard.build program [] 0).outcome = .built g st := by
  intro program entryPoints
  have hdistinct : program.Distinct := by
    rw [Program.Distinct]
    decide +kernel
  have hscoped : program.Scoped :=
    SelfRecursion.scoped_program (fun _ => rfl) fun p hp => by cases hp
  have herror : (standard.build program entryPoints 3).outcome.error? =
      some (.resolutionConflict "Test.A.'T" "Int" "Bool") := by decide +kernel
  have hedges : (standard.build program [] 0).outcome.graph?.map (·.edgeCount) = some 2 := by
    decide +kernel
  obtain ⟨g, st, hbuilt, -⟩ := Outcome.exists_built hedges
  exact ⟨hdistinct, SelfRecursion.annotated_program, hscoped, SelfRecursion.nonGeneric_main,
    List.cons_ne_nil _ _, Outcome.eq_failed herror, g, st, hbuilt⟩

end Builder

end CallGraphs
