import CallGraphs.Proofs.Settings

/-!
# CallGraphs.Proofs.Limits

Construction with a limit against construction without.  The graph only
grows, and each time it does the limit is watched.  So a limited construction
does what the unlimited one does as long as the graph is not above the limit,
and fails as soon as it is.

* `relates_cutAt` — the elementary steps;
* `run_limited_cases` — constructions;
* `built_unlimited`, `failed_unlimited` — their outcomes.
-/

namespace CallGraphs

/-- The settings without the limit. -/
def Options.unlimited (options : Options) : Options := { options with nodeLimit := none }

/-- The builder without the limit. -/
def Builder.unlimited (b : Builder) : Builder := { b with options := b.options.unlimited }

/-! ## steps -/

namespace Build

variable {limit : Nat} {α β : Type} {x y : Build α}

/-- A step is cut of another one at a limit: it does the same where that one
leaves the graph within the limit, and fails where that one takes the graph
beyond it. -/
structure CutAt (limit : Nat) (x y : Build α) : Prop where
  grows : ∀ p, p.graph.nodeCount ≤ (after y p).graph.nodeCount
  within : ∀ p, (after y p).graph.nodeCount ≤ limit → x p = y p
  beyond : ∀ p, p.graph.nodeCount ≤ limit → limit < (after y p).graph.nodeCount →
    ∃ q, x p = .error (.nodeLimitExceeded limit) q

/-- A step that leaves the graph alone. -/
theorem CutAt.still (h : ∀ p, (after x p).graph = p.graph) : CutAt limit x x where
  grows p := by rw [h]
  within _ _ := rfl
  beyond p hle hlt := by
    rw [h] at hlt
    exact absurd hlt (Nat.not_lt.2 hle)

/-- A step that adds to the graph and then watches the limit. -/
theorem CutAt.watched {x y : Build Unit} (add finish : Progress → Progress)
    (hgrows : ∀ p, p.graph.nodeCount ≤ (add p).graph.nodeCount)
    (hfinish : ∀ p, (finish p).graph = p.graph)
    (hx : ∀ p, x p =
      if limit < (add p).graph.nodeCount then .error (.nodeLimitExceeded limit) (add p)
      else .ok () (finish (add p)))
    (hy : ∀ p, y p = .ok () (finish (add p))) : CutAt limit x y := by
  have hafter (p : Progress) : (after y p).graph = (add p).graph := by
    rw [after, hy]
    exact hfinish (add p)
  constructor
  case grows =>
    intro p
    rw [hafter]
    exact hgrows p
  case within =>
    intro p hle
    rw [hafter] at hle
    rw [hx, hy, if_neg (Nat.not_lt.2 hle)]
  case beyond =>
    intro p _ hlt
    rw [hafter] at hlt
    exact ⟨add p, by rw [hx, if_pos hlt]⟩

/-- Where the first of two steps goes beyond the limit, so do both, since the
graph does not shrink. -/
theorem CutAt.bind {f g : α → Build β} (h : CutAt limit x y)
    (hrest : ∀ a, CutAt limit (f a) (g a)) : CutAt limit (x >>= f) (y >>= g) := by
  have hle (p : Progress) :
      (after y p).graph.nodeCount ≤ (after (y >>= g) p).graph.nodeCount := by
    rw [after, after, bind_apply]
    cases y p with
    | error e q => exact Nat.le_refl _
    | ok a q => exact (hrest a).grows q
  constructor
  case grows => exact fun p => (h.grows p).trans (hle p)
  case within =>
    intro p hwithin
    have hfirst := h.within p ((hle p).trans hwithin)
    rw [bind_apply, bind_apply, hfirst]
    rw [after, bind_apply] at hwithin
    cases hy : y p with
    | error e q => rfl
    | ok a q =>
        rw [hy] at hwithin
        exact (hrest a).within q hwithin
  case beyond =>
    intro p hp hbeyond
    rw [bind_apply]
    by_cases hfirst : (after y p).graph.nodeCount ≤ limit
    · rw [h.within p hfirst]
      rw [after, bind_apply] at hbeyond
      rw [after] at hfirst
      cases hy : y p with
      | error e q =>
          rw [hy] at hfirst hbeyond
          exact absurd hbeyond (Nat.not_lt.2 hfirst)
      | ok a q =>
          rw [hy] at hfirst hbeyond
          exact (hrest a).beyond q hfirst hbeyond
    · obtain ⟨q, hq⟩ := h.beyond p hp (Nat.lt_of_not_le hfirst)
      exact ⟨q, by rw [hq]⟩

/-- The steps under a limit are cut of the steps without at it. -/
theorem relates_cutAt (limit : Nat) (traceEdges : Bool) :
    Relates ⟨some limit, traceEdges⟩ ⟨none, traceEdges⟩ fun _ => CutAt limit where
  pure _ := .still fun _ => rfl
  throw _ := .still fun _ => rfl
  bind h hrest := h.bind hrest
  count := .still fun _ => rfl
  bodyless _ := .still fun _ => rfl
  walking _ := .still fun _ => rfl
  noteChain _ := .still fun _ => rfl
  next := .still fun p => by
    rw [after, Builder.next_apply]
    cases p.worklist.pop <;> rfl
  enter n := by
    refine .watched (fun p => { p with graph := p.graph.addNode n }) id
      (fun p => (p.graph.prefix_addNode n).length_le) (fun _ => rfl) (fun p => ?_) fun _ => rfl
    exact checkLimit_apply ⟨some limit, traceEdges⟩ { p with graph := p.graph.addNode n }
  record e := by
    refine .watched (·.store traceEdges e) (·.offer e.callee)
      (fun p => (p.graph.prefix_addDependency e).length_le) (fun _ => rfl) (fun p => ?_)
      fun p => record_of_unlimited rfl e p
    rw [record_apply, checkLimit_apply]
    by_cases h : limit < (p.store traceEdges e).graph.nodeCount
    · simp only [if_pos h]
    · simp only [if_neg h]

end Build

/-! ## constructions -/

namespace Builder

variable {b : Builder} {program : Program} {entryPoints : List QualifiedName} {looks : Nat}

/-- A construction with a limit does what it does without, if that leaves the
graph within the limit, and else fails. -/
theorem run_limited_cases (combiner : Combiner) (limit : Nat) (traceEdges : Bool)
    (program : Program) (entryPoints : List QualifiedName) (looks : Nat) :
    let limited : Builder := ⟨combiner, ⟨some limit, traceEdges⟩⟩
    let unlimited : Builder := ⟨combiner, ⟨none, traceEdges⟩⟩
    ((unlimited.state program entryPoints looks).graph.nodeCount ≤ limit ∧
      limited.run program entryPoints looks (start entryPoints) =
        unlimited.run program entryPoints looks (start entryPoints)) ∨
    (limit < (unlimited.state program entryPoints looks).graph.nodeCount ∧
      ∃ q, limited.run program entryPoints looks (start entryPoints) =
        .error (.nodeLimitExceeded limit) q) := by
  intro limited unlimited
  have hcut : Build.CutAt limit (limited.run program entryPoints looks)
      (unlimited.run program entryPoints looks) :=
    (Build.relates_cutAt limit traceEdges).run program entryPoints looks
  rcases Nat.lt_or_ge limit (unlimited.state program entryPoints looks).graph.nodeCount with
    hbeyond | hwithin
  · exact .inr ⟨hbeyond, hcut.beyond (start entryPoints) (Nat.zero_le limit) hbeyond⟩
  · exact .inl ⟨hwithin, hcut.within (start entryPoints) hwithin⟩

/-- The limit changes nothing, or it ends the construction. -/
theorem build_unlimited_cases (b : Builder) (program : Program) (entryPoints : List QualifiedName)
    (looks : Nat) :
    b.build program entryPoints looks = b.unlimited.build program entryPoints looks ∨
    ∃ limit, (b.build program entryPoints looks).outcome = .failed (.nodeLimitExceeded limit) := by
  obtain ⟨combiner, nodeLimit, traceEdges⟩ := b
  cases nodeLimit with
  | none => exact .inl rfl
  | some limit =>
      rw [build_eq_report, build_eq_report]
      obtain ⟨-, hsame⟩ | ⟨-, q, herror⟩ :=
        run_limited_cases combiner limit traceEdges program entryPoints looks
      · exact .inl (by rw [hsame]; rfl)
      · exact .inr ⟨limit, by rw [herror]; rfl⟩

/-- Where a graph is built, the limit changes nothing. -/
theorem build_eq_unlimited {g : CallGraph} {st : Statistics}
    (h : (b.build program entryPoints looks).outcome = .built g st) :
    b.build program entryPoints looks = b.unlimited.build program entryPoints looks := by
  obtain hsame | ⟨limit, herror⟩ := b.build_unlimited_cases program entryPoints looks
  · exact hsame
  · rw [herror] at h
    cases h

/-- A graph that is built within the limit is built without it. -/
theorem built_unlimited {g : CallGraph} {st : Statistics}
    (h : (b.build program entryPoints looks).outcome = .built g st) :
    (b.unlimited.build program entryPoints looks).outcome = .built g st := by
  rw [← build_eq_unlimited h]
  exact h

/-- An error other than the limit comes up without the limit too. -/
theorem failed_unlimited {e : BuildError} (he : ∀ limit, e ≠ .nodeLimitExceeded limit)
    (h : (b.build program entryPoints looks).outcome = .failed e) :
    (b.unlimited.build program entryPoints looks).outcome = .failed e := by
  obtain hsame | ⟨limit, herror⟩ := b.build_unlimited_cases program entryPoints looks
  · rw [← hsame]
    exact h
  · rw [herror] at h
    cases h
    exact absurd rfl (he limit)

end Builder

end CallGraphs
