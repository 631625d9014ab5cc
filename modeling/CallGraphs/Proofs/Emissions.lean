import CallGraphs.Proofs.Replay

/-!
# CallGraphs.Proofs.Emissions

What a walk of a body combines and emits.  Both are read off the tree: the
walk hands the chains of the references to the combiner, in their order, and
without a limit its edges do not depend on the construction that it is a
step of.

* `body_combines` — the chains that a walk combines;
* `body_emits` — the edges that a walk emits.
-/

namespace CallGraphs

/-! ## chains -/

namespace Build

/-- Recording an edge notes no chain. -/
theorem chains_record (options : Options) (e : Edge) (p : Progress) :
    (after (record options e) p).chains = p.chains := by
  rw [after, record_apply]
  obtain ⟨hwithin, -⟩ | ⟨limit, hbeyond⟩ := checkLimit_cases options (p.store options.traceEdges e)
  · rw [hwithin]
    rfl
  · rw [hbeyond]
    rfl

theorem chains_forM_record (options : Options) (es : List Edge) (p : Progress) :
    (after (forM es (record options)) p).chains = p.chains := by
  induction es generalizing p with
  | nil => rfl
  | cons e es ih =>
      have hfirst := chains_record options e p
      rw [after] at hfirst ⊢
      rw [List.forM_cons, bind_apply]
      cases h : record options e p with
      | error err q => simpa only [h] using hfirst
      | ok u q =>
          simp only [h] at hfirst
          rw [← hfirst]
          exact ih q

end Build

namespace Site

/-- A reference combines one chain. -/
theorem chains_emit (site : Site) (name : QualifiedName) (kinds : List Variant)
    (chain : List Substitution) (p : Progress) :
    (Build.after (site.emit name kinds chain) p).chains = p.chains ++ [chain] := by
  rw [Build.after, emit, bind_apply, Build.noteChain_apply]
  dsimp only
  rw [bind_apply, ofExcept_apply]
  cases site.combiner chain with
  | error e => rfl
  | ok combined =>
      dsimp only
      rw [bind_apply, ofExcept_apply]
      cases site.target name combined with
      | error e => rfl
      | ok target => exact Build.chains_forM_record site.options _ (p.note [chain])

/-- References combine their chains in order, the last one being that of the
reference that fails if one does. -/
theorem chains_forM_emit (site : Site) (rs : List Reference) (p : Progress) :
    ∃ n, n ≤ rs.length ∧
      (Build.after (forM rs fun r => site.emit r.name r.variants (r.chain site.resolutions))
        p).chains = p.chains ++ (rs.take n).map (·.chain site.resolutions) ∧
      ∀ q, (forM rs fun r => site.emit r.name r.variants (r.chain site.resolutions)) p =
        .ok () q → n = rs.length := by
  induction rs generalizing p with
  | nil => exact ⟨0, Nat.le_refl _, by simp [Build.after, pure, EStateM.pure], fun _ _ => rfl⟩
  | cons r rs ih =>
      have hfirst := site.chains_emit r.name r.variants (r.chain site.resolutions) p
      rw [Build.after] at hfirst ⊢
      rw [List.forM_cons, bind_apply]
      cases h : site.emit r.name r.variants (r.chain site.resolutions) p with
      | error e q =>
          rw [h] at hfirst
          refine ⟨1, by simp, ?_, fun q hq => by cases hq⟩
          simpa using hfirst
      | ok u q =>
          rw [h] at hfirst
          obtain ⟨n, hn, hchains, hall⟩ := ih q
          refine ⟨n + 1, Nat.succ_le_succ hn, ?_, fun q' hq' => congrArg (· + 1) (hall q' hq')⟩
          rw [Build.after] at hchains
          dsimp only at hfirst ⊢
          rw [hchains, hfirst, List.take_succ_cons, List.map_cons, List.append_assoc]
          rfl

/-- A combiner matters only through what it makes of the chain. -/
theorem emit_congr (site : Site) {combiner : Combiner} (name : QualifiedName)
    (kinds : List Variant) {chain : List Substitution}
    (h : combiner chain = site.combiner chain) :
    emit { site with combiner := combiner } name kinds chain = site.emit name kinds chain := by
  rw [emit, emit]
  dsimp only
  rw [h]
  rfl

end Site

/-- Which substitutions reach a reference.  A walk hands to the combiner, for
one reference after the other, the non-empty substitutions of the enclosing
expressions in which that reference is the first one, from the inside out,
and last the substitution of the caller.  It combines nothing else: the
chains that it notes are these, as far as it comes, and a combiner matters
only through what it makes of them. -/
theorem Walk.body_combines (site : Site) (scope : Scope) :
    let given (r : Reference) : List Substitution :=
      (r.frames.filter fun frame => frame.earlier = 0 ∧ frame.resolutions.isEmpty = false).map
        (·.resolutions) ++ [site.resolutions]
    (Walk.body site scope =
      forM scope.references fun r => do
        Build.noteChain (given r)
        let combined ← MonadExcept.ofExcept (site.combiner (given r))
        let target ← MonadExcept.ofExcept (site.target r.name combined)
        (r.variants.map (site.edge r.name target)).forM (Build.record site.options)) ∧
    (∀ p, ∃ n, n ≤ scope.references.length ∧
      (Build.after (Walk.body site scope) p).chains =
        p.chains ++ (scope.references.take n).map given ∧
      ∀ q, Walk.body site scope p = .ok () q → n = scope.references.length) ∧
    ∀ combiner : Combiner, (∀ r ∈ scope.references, combiner (given r) = site.combiner (given r)) →
      Walk.body { site with combiner := combiner } scope = Walk.body site scope := by
  intro given
  have hbody := Walk.body_eq_forM site scope
  refine ⟨?_, fun p => ?_, fun combiner h => ?_⟩
  · exact hbody
  · rw [hbody]
    exact site.chains_forM_emit scope.references p
  · rw [hbody, Walk.body_eq_forM]
    exact forM_eq_of_map_eq (List.map_congr_left fun r hr => site.emit_congr _ _ (h r hr))

/-! ## edges -/

/-- What references emit up to the first one that fails: the references that
were processed, that one included, their edges and the error. -/
structure Emissions where
  visited : List Reference
  edges : List Edge
  error : Option BuildError

namespace Emissions

/-- A construction after references were processed. -/
def record (emissions : Emissions) (site : Site) (p : Progress) : Progress :=
  (p.recordAll site.options.traceEdges emissions.edges).note
    (emissions.visited.map (·.chain site.resolutions))

/-- The result of processing references. -/
def run (emissions : Emissions) (site : Site) (p : Progress) :
    EStateM.Result BuildError Progress Unit :=
  match emissions.error with
  | none => .ok () (emissions.record site p)
  | some e => .error e (emissions.record site p)

end Emissions

namespace Site

/-- What a reference is resolved to at a site: the type arguments of its
callees and the substitution of its edges. -/
def resolve (site : Site) (r : Reference) : Except BuildError (Option (List Ty) × Substitution) :=
  match site.combiner (r.chain site.resolutions) with
  | .error e => .error e
  | .ok combined => site.target r.name combined

/-- What references emit at a site. -/
def emissions (site : Site) : List Reference → Emissions
  | [] => ⟨[], [], none⟩
  | r :: rs =>
    match site.resolve r with
    | .error e => ⟨[r], [], some e⟩
    | .ok target =>
      ⟨r :: (site.emissions rs).visited,
        r.variants.map (site.edge r.name target) ++ (site.emissions rs).edges,
        (site.emissions rs).error⟩

/-- Without a limit a reference fails only if it is not resolved. -/
theorem emit_apply {site : Site} (h : site.options.nodeLimit = none) (r : Reference)
    (p : Progress) :
    site.emit r.name r.variants (r.chain site.resolutions) p =
      match site.resolve r with
      | .error e => .error e (p.note [r.chain site.resolutions])
      | .ok target =>
        .ok () ((p.recordAll site.options.traceEdges
          (r.variants.map (site.edge r.name target))).note [r.chain site.resolutions]) := by
  rw [emit, bind_apply, Build.noteChain_apply, resolve]
  dsimp only
  rw [bind_apply, ofExcept_apply]
  cases site.combiner (r.chain site.resolutions) with
  | error e => rfl
  | ok combined =>
      dsimp only
      rw [bind_apply, ofExcept_apply]
      cases site.target r.name combined with
      | error e => rfl
      | ok target =>
          dsimp only
          rw [← Progress.recordAll_note]
          exact Build.forM_record h _ _

/-- Without a limit what references emit does not depend on the construction
that they are processed in. -/
theorem forM_emit {site : Site} (h : site.options.nodeLimit = none) (rs : List Reference)
    (p : Progress) :
    (forM rs fun r => site.emit r.name r.variants (r.chain site.resolutions)) p =
      (site.emissions rs).run site p := by
  induction rs generalizing p with
  | nil => simp [emissions, Emissions.run, Emissions.record, Progress.note, pure, EStateM.pure]
  | cons r rs ih =>
      rw [List.forM_cons, bind_apply, emit_apply h, emissions]
      cases site.resolve r with
      | error e => rfl
      | ok target =>
          dsimp only
          rw [ih, Emissions.run, Emissions.run, Emissions.record, Emissions.record]
          dsimp only
          rw [Progress.recordAll_note, Progress.note_note, Progress.recordAll_append]
          rfl

/-- The edges are those of the references that were processed. -/
theorem edges_emissions (site : Site) (rs : List Reference) :
    (site.emissions rs).edges = (site.emissions rs).visited.flatMap fun r =>
      match site.resolve r with
      | .error _ => []
      | .ok target => r.variants.map (site.edge r.name target) := by
  induction rs with
  | nil => rfl
  | cons r rs ih =>
      rw [emissions]
      cases h : site.resolve r with
      | error e => simp [h]
      | ok target => simp [h, ih]

/-- Every edge comes from a reference that is resolved. -/
theorem mem_edges_emissions {site : Site} {rs : List Reference} {e : Edge}
    (h : e ∈ (site.emissions rs).edges) :
    ∃ r ∈ rs, ∃ target kind, site.resolve r = .ok target ∧ e = site.edge r.name target kind := by
  induction rs with
  | nil => simp [emissions] at h
  | cons r rs ih =>
      rw [emissions] at h
      cases hr : site.resolve r with
      | error err => simp [hr] at h
      | ok target =>
          simp only [hr, List.mem_append, List.mem_map] at h
          obtain ⟨kind, -, rfl⟩ | h := h
          · exact ⟨r, List.mem_cons_self, target, kind, hr, rfl⟩
          · obtain ⟨r', hr', hrest⟩ := ih h
            exact ⟨r', List.mem_cons_of_mem r hr', hrest⟩

/-- Either all references are resolved, or those before the first one that is
not. -/
theorem emissions_cases (site : Site) (rs : List Reference) :
    ((site.emissions rs).error = none ∧ (site.emissions rs).visited = rs ∧
      ∀ r ∈ rs, ∃ target, site.resolve r = .ok target) ∨
    ∃ e done r rest, rs = done ++ r :: rest ∧ (site.emissions rs).error = some e ∧
      (site.emissions rs).visited = done ++ [r] ∧ site.resolve r = .error e ∧
      ∀ r' ∈ done, ∃ target, site.resolve r' = .ok target := by
  induction rs with
  | nil => exact .inl ⟨rfl, rfl, by simp⟩
  | cons r rs ih =>
      rw [emissions]
      cases h : site.resolve r with
      | error e => exact .inr ⟨e, [], r, rs, rfl, rfl, rfl, h, by simp⟩
      | ok target =>
          obtain ⟨herror, hvisited, hall⟩ |
            ⟨e, done, r', rest, hrs, herror, hvisited, hr, hdone⟩ := ih
          · exact .inl ⟨herror, congrArg (r :: ·) hvisited,
              List.forall_mem_cons.2 ⟨⟨target, h⟩, hall⟩⟩
          · exact .inr ⟨e, r :: done, r', rest, congrArg (r :: ·) hrs, herror,
              congrArg (r :: ·) hvisited, hr, List.forall_mem_cons.2 ⟨⟨target, h⟩, hdone⟩⟩

end Site

/-- Without a limit a walk processes the references of its body. -/
theorem Walk.body_apply {site : Site} (h : site.options.nodeLimit = none) (scope : Scope)
    (p : Progress) : Walk.body site scope p = (site.emissions scope.references).run site p := by
  rw [Walk.body_eq_forM]
  exact Site.forM_emit h scope.references p

/-- Without a limit the edges of a walk are a function of the tree and the
site, whatever the construction that it is a step of.  The references are
processed in the order of the traversal, all of them or up to the first one
that is not resolved.  One that is called on the spot emits one edge, to the
variant of its functors, and any other one emits four, which differ in that
variant only. -/
theorem Walk.body_emits (site : Site) (scope : Scope) (h : site.options.nodeLimit = none) :
    let emissions := site.emissions scope.references
    scope.references.map (·.name) = scope.identifiers.filterMap Identifier.callable? ∧
    (∀ p, Walk.body site scope p = emissions.run site p) ∧
    (emissions.edges = emissions.visited.flatMap fun r =>
      match site.resolve r with
      | .error _ => []
      | .ok target =>
        (if r.Direct then [Variant.ofFunctors r.adjoint r.controlled]
          else [.body, .adjoint, .controlled, .controlledAdjoint]).map fun kind =>
            ⟨site.caller, ⟨r.name, kind, target.1⟩, target.2⟩) ∧
    ((emissions.error = none ∧ emissions.visited = scope.references ∧
        ∀ r ∈ scope.references, ∃ target, site.resolve r = .ok target) ∨
      ∃ e done r rest, scope.references = done ++ r :: rest ∧ emissions.error = some e ∧
        emissions.visited = done ++ [r] ∧ site.resolve r = .error e ∧
        ∀ r' ∈ done, ∃ target, site.resolve r' = .ok target) := by
  intro emissions
  refine ⟨scope.map_name_references, fun p => ?_, ?_, site.emissions_cases scope.references⟩
  · rw [Walk.body_eq_forM]
    exact Site.forM_emit h scope.references p
  · exact site.edges_emissions scope.references

/-- The adjoint of `F` is called on the spot, and `G` is handed to it. -/
theorem Walk.body_emits_adjoint_call :
    let name (s : String) : QualifiedName := ⟨"Test", s⟩
    let reference (s : String) : Expression := ⟨.identifier (.callable (name s)), .missing, ∅⟩
    let scope : Scope :=
      [.expression ⟨.call ⟨.adjoint (reference "F"), .missing, ∅⟩ (reference "G"), .missing, ∅⟩]
    let site : Site :=
      { find? := fun n => some ⟨n, .operation, [], []⟩
        combiner := Combiner.compose
        caller := ⟨name "Main", .body, none⟩
        resolutions := ∅
        options := ⟨none, false⟩ }
    site.options.nodeLimit = none ∧
    (∀ p, ∃ q, Walk.body site scope p = .ok () q ∧
      q.graph = (p.recordAll site.options.traceEdges
        [⟨site.caller, ⟨name "F", .adjoint, none⟩, ∅⟩,
          ⟨site.caller, ⟨name "G", .body, none⟩, ∅⟩,
          ⟨site.caller, ⟨name "G", .adjoint, none⟩, ∅⟩,
          ⟨site.caller, ⟨name "G", .controlled, none⟩, ∅⟩,
          ⟨site.caller, ⟨name "G", .controlledAdjoint, none⟩, ∅⟩]).graph) := by
  intro name reference scope site
  have herror : (site.emissions scope.references).error = none := by decide +kernel
  have hedges : (site.emissions scope.references).edges =
      [⟨site.caller, ⟨name "F", .adjoint, none⟩, ∅⟩,
        ⟨site.caller, ⟨name "G", .body, none⟩, ∅⟩,
        ⟨site.caller, ⟨name "G", .adjoint, none⟩, ∅⟩,
        ⟨site.caller, ⟨name "G", .controlled, none⟩, ∅⟩,
        ⟨site.caller, ⟨name "G", .controlledAdjoint, none⟩, ∅⟩] := by decide +kernel
  refine ⟨rfl, fun p => ⟨(site.emissions scope.references).record site p, ?_, ?_⟩⟩
  · rw [(Walk.body_emits site scope rfl).2.1 p, Emissions.run, herror]
  · rw [Emissions.record, hedges, Progress.graph_note]

end CallGraphs
