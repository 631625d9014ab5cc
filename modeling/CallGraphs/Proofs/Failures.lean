import CallGraphs.Proofs.Limits
import CallGraphs.Proofs.Resolution

/-!
# CallGraphs.Proofs.Failures

Why a construction on demand fails.  Apart from the limit, an error comes up
at a reached node only: the node itself is refused, or one of its references is
not resolved.

* `refuses_of_processNode` — the errors of a node;
* `exists_refuses_of_failed` — the errors of a construction.
-/

namespace CallGraphs

namespace Builder

variable {b : Builder} {find? : QualifiedName → Option Callable} {program : Program}
  {entryPoints : List QualifiedName} {n : Node} {p q : Progress} {e : BuildError} {looks : Nat}

/-! ## nodes -/

/-- The errors that come up at a node. -/
inductive Refuses (b : Builder) (find? : QualifiedName → Option Callable) (n : Node) :
    BuildError → Prop
  /-- The node itself is refused. -/
  | node {e : BuildError} (h : n.Refused find? e) : Refuses b find? n e
  /-- One of its references is not resolved. -/
  | reference {s : Specialization} {resolutions : Substitution} {r : Reference} {e : BuildError}
      (hs : n.StandsFor find? s resolutions) (hr : r ∈ s.references)
      (h : (b.site find? n resolutions).resolve r = .error e) : Refuses b find? n e

/-- Without a limit these are the errors of processing a node. -/
theorem refuses_of_processNode (hlimit : b.options.nodeLimit = none)
    (h : b.processNode find? n p = .error e q) : b.Refuses find? n e := by
  obtain hrefused | ⟨limit, hsome, -⟩ | ⟨s, resolutions, hs, r, hr, hresolve, -⟩ :=
    processNode_eq_error h
  · exact .node hrefused
  · rw [hlimit] at hsome
    cases hsome
  · exact .reference hs hr hresolve

/-! ## constructions -/

/-- Looking for nodes fails while it processes a reached one. -/
theorem Invariant.exists_refuses (hp : b.Invariant find? entryPoints p)
    (hlimit : b.options.nodeLimit = none) (h : b.drain find? looks p = .error e q) :
    ∃ n, b.Reached find? entryPoints n ∧ b.Refuses find? n e := by
  induction looks generalizing p with
  | zero => cases h
  | succ looks ih =>
      rw [drain_step] at h
      cases hpop : p.worklist.pop with
      | none =>
          rw [hpop] at h
          cases h
      | some next =>
          obtain ⟨n, w⟩ := next
          simp only [hpop] at h
          cases hn : b.processNode find? n { p with worklist := w } with
          | error err q' =>
              simp only [hn] at h
              cases h
              have hnext : n ∈ p.worklist.accepted := Worklist.next_mem_accepted hpop
              exact ⟨n, hp.reached n hnext, refuses_of_processNode hlimit hn⟩
          | ok u q' =>
              simp only [hn] at h
              exact ih (hp.step hlimit hpop hn) h

/-- A construction fails because of the limit or because a node is refused
that it would reach without. -/
theorem exists_refuses_of_failed (hentries : entryPoints ≠ [])
    (he : ∀ limit, e ≠ .nodeLimitExceeded limit)
    (h : (b.build program entryPoints looks).outcome = .failed e) :
    ∃ n, b.unlimited.Reached program.find? entryPoints n ∧
      b.unlimited.Refuses program.find? n e := by
  have hunlimited := failed_unlimited he h
  rw [build_outcome _ _ hentries] at hunlimited
  cases hdrain : b.unlimited.drain program.find? looks (.initial (seeds entryPoints)) with
  | ok done q => cases done <;> simp [hdrain] at hunlimited
  | error err q =>
      simp only [hdrain] at hunlimited
      cases hunlimited
      exact (Invariant.initial b.unlimited program.find? entryPoints).exists_refuses rfl hdrain

end Builder

end CallGraphs
