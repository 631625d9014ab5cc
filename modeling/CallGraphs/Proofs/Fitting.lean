import CallGraphs.Proofs.Labels

/-!
# CallGraphs.Proofs.Fitting

The nodes that a construction on demand comes upon fit their callables.  All
but the bodies of the entry points are callees of resolved references, and
such a callee is made from the callable that it names.  So its type arguments
can be given to that callable, and it is found whenever it is looked up.

* `Edge.Refers.fits` — the callee of a reference;
* `fits_of_passes` — the nodes of a construction;
* `chain_of_failed` — where an error about type arguments comes from;
* `nodes_fit` — the errors that this leaves.
-/

namespace CallGraphs

/-! ## fitting nodes -/

/-- A node fits the callable that is found for it: one is found, and the node
has type arguments if that is generic, as many as it declares parameters. -/
def Node.Fits (find? : QualifiedName → Option Callable) (n : Node) : Prop :=
  ∃ c, find? n.callable = some c ∧ (n.typeArguments.isSome ↔ c.isGeneric = true) ∧
    ∀ types, n.typeArguments = some types → types.length = c.typeParameters.length

/-- Type arguments that fit are given to the parameters. -/
theorem Node.Fits.exists_instantiate {find? : QualifiedName → Option Callable} {n : Node}
    {c : Callable} (h : n.Fits find?) (hc : find? n.callable = some c) :
    ∃ resolutions, c.instantiate n.typeArguments = .ok resolutions := by
  obtain ⟨c', hc', -, hlength⟩ := h
  obtain rfl : c' = c := Option.some.inj (hc'.symm.trans hc)
  cases htypes : n.typeArguments with
  | none => exact ⟨∅, rfl⟩
  | some types => exact ⟨_, if_pos (hlength types htypes)⟩

/-- The callee of a reference fits. -/
theorem Edge.Refers.fits {find? : QualifiedName → Option Callable} {e : Edge}
    (h : e.Refers find?) : e.callee.Fits find? := by
  obtain ⟨c, combined, hc, -, htarget⟩ := h
  have htypes : e.callee.typeArguments =
      if c.isGeneric then some ((Walk.boundTypes c.parameters combined).map (·.2)) else none :=
    congrArg Prod.fst htarget
  refine ⟨c, hc, ?_, fun types h => ?_⟩
  · rw [htypes]
    by_cases hgeneric : c.isGeneric <;> simp [hgeneric]
  · rw [htypes] at h
    split at h
    · have hlength : (Walk.boundTypes c.parameters combined).length = c.typeParameters.length := by
        simp [Walk.boundTypes]
      cases h
      rw [List.length_map, hlength]
    · cases h

/-- A node is the body of an entry point, or it fits. -/
def Node.EntersOrFits (program : Program) (entryPoints : List QualifiedName) (n : Node) : Prop :=
  (∃ name ∈ entryPoints, n = .entry name) ∨ n.Fits program.find?

/-- Then its type arguments are given to the callable that is found. -/
theorem Node.EntersOrFits.exists_instantiate {program : Program} {entryPoints : List QualifiedName}
    {n : Node} {c : Callable} (h : n.EntersOrFits program entryPoints)
    (hc : program.find? n.callable = some c) :
    ∃ resolutions, c.instantiate n.typeArguments = .ok resolutions := by
  obtain ⟨name, -, rfl⟩ | hfits := h
  · exact ⟨∅, rfl⟩
  · exact hfits.exists_instantiate hc

namespace Builder

variable {b : Builder} {program : Program} {entryPoints : List QualifiedName} {p q : Progress}
  {n : Node} {callable : String} {expected found looks : Nat}

/-! ## the nodes of a construction -/

/-- In every state that a construction passes through, the nodes but for the
entry points fit. -/
theorem fits_of_passes (h : b.Passes program.find? (.initial (seeds entryPoints)) q) :
    Holds (·.EntersOrFits program entryPoints) (·.Refers program.find?) q := by
  have hinitial : Holds (·.EntersOrFits program entryPoints) (·.Refers program.find?)
      (.initial (seeds entryPoints)) := .initial fun name hname => .inl ⟨name, hname, rfl⟩
  refine hinitial.passes h fun _ _ he => ?_
  have hrefers := refers_of_mem_emissions he
  exact ⟨.inr hrefers.fits, hrefers⟩

/-! ## errors -/

/-- If the number of its type arguments is the error that comes up while a
fitting node is processed, the combiner gave it for the last chain. -/
theorem chain_of_processNode (hn : n.EntersOrFits program entryPoints)
    (h : b.processNode program.find? n p =
      .error (.typeArgumentArity callable expected found) q) :
    ∃ chain, q.chains.getLast? = some chain ∧
      b.combiner chain = .error (.typeArgumentArity callable expected found) := by
  obtain hrefused | ⟨limit, -, hlimit⟩ | ⟨s, resolutions, -, r, -, hresolve, hlast⟩ :=
    processNode_eq_error h
  · cases hrefused with
    | template _ htemplate =>
        rw [Callable.template] at htemplate
        split at htemplate <;> cases htemplate
    | arguments hc harguments =>
        obtain ⟨resolutions, hresolutions⟩ := hn.exists_instantiate hc
        rw [harguments] at hresolutions
        cases hresolutions
  · cases hlimit
  · obtain hchain | ⟨-, herror⟩ | ⟨c, p, -, -, herror⟩ := Site.resolve_error_cases hresolve
    · exact ⟨_, hlast, hchain⟩
    · cases herror
    · cases herror

/-- So it is in a construction. -/
theorem chain_of_failed (hentries : entryPoints ≠ [])
    (h : (b.build program entryPoints looks).outcome =
      .failed (.typeArgumentArity callable expected found)) :
    ∃ chain, (b.build program entryPoints looks).chains.getLast? = some chain ∧
      b.combiner chain = .error (.typeArgumentArity callable expected found) := by
  obtain ⟨q, hdrain, hchains⟩ := exists_of_failed hentries h
  obtain ⟨p, n, w, hpasses, hpop, hnode⟩ := drain_eq_error hdrain
  have hn : n.EntersOrFits program entryPoints :=
    (fits_of_passes hpasses).accepted n (Worklist.next_mem_accepted hpop)
  rw [hchains]
  exact chain_of_processNode hn hnode

/-- Reached nodes fit, so some errors do not come up.  In every state of a
construction on demand, with or without a limit and with any combiner, each
node that is pending, resolved or in the graph is the body of an entry point
or fits the callable that is found for it.  So a node that comes out of the
worklist is looked up in vain only if it is an entry point that is not
declared, and its type arguments can always be given to the callable that is
found.  A construction fails because of their number only if its combiner gave
that very error for the last chain, which composition does not. -/
theorem nodes_fit (b : Builder) (program : Program) (entryPoints : List QualifiedName) :
    let start : Progress := .initial (seeds entryPoints)
    (∀ looks, b.Passes program.find? start (Build.after (b.drain program.find? looks) start)) ∧
    (∀ q, b.Passes program.find? start q →
      (∀ n, n ∈ q.worklist.pending ∨ n ∈ q.worklist.resolved ∨ n ∈ q.graph.nodes →
        (∃ name ∈ entryPoints, n = .entry name) ∨ n.Fits program.find?) ∧
      ∀ n w, q.worklist.pop = some (n, w) →
        (program.find? n.callable = none →
          ∃ name ∈ entryPoints, n = .entry name ∧ program.find? name = none) ∧
        ∀ c, program.find? n.callable = some c →
          ∃ resolutions, c.instantiate n.typeArguments = .ok resolutions) ∧
    (entryPoints ≠ [] → ∀ looks callable expected found,
      (b.build program entryPoints looks).outcome =
        .failed (.typeArgumentArity callable expected found) →
      b.combiner ≠ Combiner.compose ∧
        ∃ chain, (b.build program entryPoints looks).chains.getLast? = some chain ∧
          b.combiner chain = .error (.typeArgumentArity callable expected found)) := by
  intro start
  refine ⟨fun looks => passes_drain b program.find? looks start, fun q hq => ?_,
    fun hentries looks callable expected found hfailed => ?_⟩
  · have hholds := fits_of_passes hq
    refine ⟨fun n hn => ?_, fun n w hpop => ?_⟩
    · obtain hn | hn | hn := hn
      · exact hholds.accepted n (List.mem_append_left _ hn)
      · exact hholds.accepted n (List.mem_append_right _ hn)
      · exact hholds.nodes n hn
    · have hn := hholds.accepted n (Worklist.next_mem_accepted hpop)
      refine ⟨fun hnone => ?_, fun c hc => hn.exists_instantiate hc⟩
      obtain ⟨name, hname, rfl⟩ | ⟨c, hc, -⟩ := hn
      · exact ⟨name, hname, rfl, hnone⟩
      · rw [hnone] at hc
        cases hc
  · obtain ⟨chain, hlast, hchain⟩ := chain_of_failed hentries hfailed
    refine ⟨fun hcompose => ?_, chain, hlast, hchain⟩
    have hcomposed : Combiner.compose chain = .error (.typeArgumentArity callable expected found) :=
      hcompose ▸ hchain
    obtain ⟨p, t, u, herror⟩ | ⟨p, t, herror⟩ := Combiner.compose_error_cases hcomposed
    · cases herror
    · cases herror

/-- A combiner may give that error for a chain in which nothing is amiss: then
the construction fails with it, although all of its nodes fit. -/
theorem arity_error_of_combiner :
    let main : QualifiedName := ⟨"Test", "Main"⟩
    let unit : Expression := ⟨.literal .unit, .missing, ∅⟩
    let body : Scope :=
      [.expression ⟨.call ⟨.identifier (.callable main), .missing, ∅⟩ unit, .missing, ∅⟩]
    let program : Program :=
      ⟨[⟨"Test", [⟨main, .operation, [], [⟨.body, none, .provided body⟩]⟩]⟩]⟩
    let error : BuildError := .typeArgumentArity "Test.Main" 0 1
    (Builder.mk (Combiner.refuse error) ⟨none, false⟩ |>.build program [main] 1).outcome =
      .failed error := by
  rfl

end Builder

end CallGraphs
