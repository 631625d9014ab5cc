import CallGraphs.Proofs.Resolution

/-!
# CallGraphs.Proofs.Uses

What a walk makes of a reference: which callable it names, which of its variants
it reaches and which substitutions wait for it.  These are the uses in a body,
and each comes to an outcome at a site, its edges or an error.  A walk without
a limit is told by the outcomes alone, in whatever order they come up.

* `uses_append`, `uses_under`, `uses_within` — uses on the way down, with what
  waits going to the first reference;
* `outcome_behind` — the outcome of a reference behind a stack;
* `walkedAs_uses` — a body is walked as the uses in it say;
* `WalkedAs.congr`, `WalkedAs.walksAlike` — bodies with the same outcomes.
-/

namespace CallGraphs

/-! ## uses -/

/-- The use of a reference: the callable it names, the variants that it reaches
and the substitutions that wait for it, without that of the caller. -/
structure Use where
  name : QualifiedName
  variants : List Variant
  maps : List Substitution

/-- The use of a reference in an expression entered in the context `c`, without
what waited before. -/
def Reference.use (c : CallContext) (r : Reference) : Use :=
  ⟨r.name, Walk.variants (r.contextIn c), r.maps⟩

/-- Its use if the substitutions of a stack wait for it besides its own. -/
def Reference.useBehind (c : CallContext) (stack : Substitution.Stack) (r : Reference) : Use :=
  { r.use c with maps := r.maps ++ stack.maps }

/-- The uses of the references in an expression entered in the context `c` with
a stack, which goes to the first of them. -/
def uses (c : CallContext) (stack : Substitution.Stack) : List Reference → List Use
  | [] => []
  | r :: rs => r.useBehind c stack :: rs.map (·.use c)

/-- The uses of the references in a body. -/
def Scope.uses (scope : Scope) : List Use := scope.references.map (·.use .initial)

section

variable {c : CallContext} {stack : Substitution.Stack} {rs rs' : List Reference}

@[simp] theorem Reference.useBehind_empty (c : CallContext) (r : Reference) :
    r.useBehind c ∅ = r.use c := by
  show ({ r.use c with maps := r.maps ++ [] } : Use) = _
  rw [List.append_nil]
  rfl

/-- Where nothing waits every reference has its own substitutions only. -/
theorem uses_empty (c : CallContext) (rs : List Reference) : uses c ∅ rs = rs.map (·.use c) := by
  cases rs with
  | nil => rfl
  | cons r rs => rw [uses, Reference.useBehind_empty, List.map_cons]

/-- A reference is used once. -/
@[simp] theorem length_uses (c : CallContext) (stack : Substitution.Stack) (rs : List Reference) :
    (uses c stack rs).length = rs.length := by
  cases rs <;> simp [uses]

theorem uses_append (c : CallContext) (stack : Substitution.Stack) (rs rs' : List Reference) :
    uses c stack (rs ++ rs') = uses c stack rs ++ uses c (Walk.left stack rs) rs' := by
  cases rs with
  | nil => rfl
  | cons r rs =>
      rw [Walk.left, uses_empty, List.cons_append, uses, uses, List.map_append, List.cons_append]

/-- Going down into an operand changes the context. -/
theorem uses_under (c : CallContext) (stack : Substitution.Stack) (role : Role)
    (rs : List Reference) : uses c stack (rs.map (·.under role)) = uses (c.enter role) stack rs := by
  cases rs with
  | nil => rfl
  | cons r rs => simp [uses, Reference.useBehind, Reference.use, Reference.contextIn_under]

/-- Going down into an expression puts its substitution on the stack. -/
theorem uses_within (c : CallContext) (stack : Substitution.Stack) (map : Substitution)
    (rs : List Reference) :
    uses c stack (rs.mapIdx fun i r => r.within map i) = uses c (stack.push map) rs := by
  cases rs with
  | nil => rfl
  | cons r rs =>
      have hmaps : (r.within map 0).maps ++ stack.maps = r.maps ++ (stack.push map).maps := by
        rw [Reference.maps_within_zero, Substitution.Stack.push]
        cases map.isEmpty <;> simp
      have hfirst : (r.within map 0).useBehind c stack = r.useBehind c (stack.push map) := by
        rw [Reference.useBehind, hmaps]
        rfl
      have hrest : (rs.mapIdx fun i r => r.within map (i + 1)).map (·.use c) =
          rs.map (·.use c) :=
        List.ext_getElem (by simp) fun i _ _ => by
          simp [Reference.use, Reference.maps_within_succ]
      rw [List.mapIdx_cons, uses, uses, hfirst, hrest]

end

/-! ## outcomes -/

namespace Site

variable {site : Site}

/-- What a reference is resolved to if the substitutions of a stack wait for it
besides its own. -/
def resolveBehind (site : Site) (stack : Substitution.Stack) (r : Reference) :
    Except BuildError (Option (List Ty) × Substitution) :=
  match site.combiner (r.maps ++ stack.maps ++ [site.resolutions]) with
  | .error e => .error e
  | .ok combined => site.target r.name combined

/-- The outcome of a use at a site: the edges to record, or an error. -/
def outcome (site : Site) (u : Use) : Except BuildError (List Edge) :=
  match site.combiner (u.maps ++ [site.resolutions]) with
  | .error e => .error e
  | .ok combined => (site.target u.name combined).map fun target =>
      u.variants.map (site.edge u.name target)

/-- The outcome of the first reference behind a stack. -/
theorem outcome_behind (site : Site) (c : CallContext) (stack : Substitution.Stack)
    (r : Reference) :
    site.outcome (r.useBehind c stack) =
      (site.resolveBehind stack r).map fun target =>
        (Walk.variants (r.contextIn c)).map (site.edge r.name target) := by
  rw [outcome, Reference.useBehind, resolveBehind]
  cases site.combiner (r.maps ++ stack.maps ++ [site.resolutions]) <;> rfl

/-- The outcome of a reference in a body. -/
theorem outcome_use (site : Site) (r : Reference) :
    site.outcome (r.use .initial) =
      (site.resolve r).map fun target => r.variants.map (site.edge r.name target) := by
  rw [outcome, resolve, ← Walk.variants_contextIn]
  change (match site.combiner (r.chain site.resolutions) with
    | .error e => (.error e : Except BuildError (List Edge))
    | .ok combined => (site.target r.name combined).map fun target =>
        (Walk.variants (r.contextIn .initial)).map (site.edge r.name target)) = _
  cases site.combiner (r.chain site.resolutions) <;> rfl

/-- The outcomes of uses. -/
def outcomes (site : Site) (us : List Use) : List (Except BuildError (List Edge)) :=
  us.map site.outcome

@[simp] theorem outcomes_append (site : Site) (us us' : List Use) :
    site.outcomes (us ++ us') = site.outcomes us ++ site.outcomes us' :=
  List.map_append

@[simp] theorem outcomes_cons (site : Site) (u : Use) (us : List Use) :
    site.outcomes (u :: us) = site.outcome u :: site.outcomes us := rfl

/-- Where what waits makes no difference to the first reference, it makes none
to the outcomes. -/
theorem outcomes_uses {c : CallContext} {stack : Substitution.Stack} {rs : List Reference}
    (h : ∀ r ∈ rs.head?, site.resolveBehind stack r = site.resolveBehind ∅ r) :
    site.outcomes (uses c stack rs) = site.outcomes (rs.map (·.use c)) := by
  cases rs with
  | nil => rfl
  | cons r rs =>
      rw [uses, List.map_cons, outcomes_cons, outcomes_cons, outcome_behind, h r rfl,
        ← outcome_behind, Reference.useBehind_empty]

theorem mem_outcomes_uses {scope : Scope} {o : Except BuildError (List Edge)} :
    o ∈ site.outcomes scope.uses ↔ ∃ r ∈ scope.references,
      o = (site.resolve r).map fun target => r.variants.map (site.edge r.name target) := by
  simp only [outcomes, Scope.uses, List.map_map, List.mem_map, Function.comp_apply, outcome_use,
    eq_comm]

/-! ## walks -/

/-- A body is walked as some uses say if its walk succeeds exactly when none of
their outcomes is an error, and then adds the edges of these outcomes to the
graph. -/
structure WalkedAs (site : Site) (scope : Scope) (us : List Use) : Prop where
  succeeds : ∀ p, (∃ q, Walk.body site scope p = .ok () q) ↔
    ∀ o ∈ site.outcomes us, ∃ es, o = .ok es
  edges : ∀ p q, Walk.body site scope p = .ok () q → ∀ x, x ∈ q.graph.edges ↔
    x ∈ p.graph.edges ∨ ∃ es, .ok es ∈ site.outcomes us ∧ x ∈ es
  nodes : ∀ p q, Walk.body site scope p = .ok () q → ∀ n, n ∈ q.graph.nodes ↔
    n ∈ p.graph.nodes ∨ ∃ es, .ok es ∈ site.outcomes us ∧ ∃ x ∈ es, n = x.caller ∨ n = x.callee

/-- Two bodies are walked alike if, whatever the construction, the walk of one
succeeds exactly when that of the other does, and then both leave the same
nodes and the same edges. -/
structure WalksAlike (site : Site) (scope scope' : Scope) : Prop where
  succeeds : ∀ p, (∃ q, Walk.body site scope p = .ok () q) ↔
    ∃ q, Walk.body site scope' p = .ok () q
  records : ∀ p q q', Walk.body site scope p = .ok () q → Walk.body site scope' p = .ok () q' →
    (∀ n, n ∈ q.graph.nodes ↔ n ∈ q'.graph.nodes) ∧ ∀ x, x ∈ q.graph.edges ↔ x ∈ q'.graph.edges

variable {scope scope' : Scope} {us us' : List Use} {p q : Progress}

/-- A body whose references are all resolved has no other outcomes than their
edges. -/
theorem mem_edges_emissions_iff_outcomes {x : Edge}
    (h : (site.emissions scope.references).error = none) :
    x ∈ (site.emissions scope.references).edges ↔
      ∃ es, .ok es ∈ site.outcomes scope.uses ∧ x ∈ es := by
  rw [mem_edges_emissions_iff h]
  constructor
  · rintro ⟨r, hr, target, htarget, kind, hkind, rfl⟩
    refine ⟨r.variants.map (site.edge r.name target), ?_, List.mem_map_of_mem hkind⟩
    exact mem_outcomes_uses.2 ⟨r, hr, by rw [htarget]; rfl⟩
  · rintro ⟨es, hes, hx⟩
    obtain ⟨r, hr, hout⟩ := mem_outcomes_uses.1 hes
    obtain ⟨target, htarget⟩ := exists_resolve_of_emissions h hr
    rw [htarget] at hout
    cases hout
    obtain ⟨kind, hkind, rfl⟩ := List.mem_map.1 hx
    exact ⟨r, hr, target, htarget, kind, hkind, rfl⟩

/-- References are resolved if none of the outcomes is an error. -/
theorem error_emissions_iff_outcomes :
    (site.emissions scope.references).error = none ↔
      ∀ o ∈ site.outcomes scope.uses, ∃ es, o = .ok es := by
  obtain ⟨hnone, -, hall⟩ | ⟨e, done, r, rest, hrs, herror, -, hr, -⟩ :=
    site.emissions_cases scope.references
  · refine iff_of_true hnone fun o ho => ?_
    obtain ⟨r, hmem, rfl⟩ := mem_outcomes_uses.1 ho
    obtain ⟨target, htarget⟩ := hall r hmem
    exact ⟨_, by rw [htarget]; rfl⟩
  · refine iff_of_false (by simp [herror]) fun h => ?_
    obtain ⟨es, hes⟩ := h _ (mem_outcomes_uses.2 ⟨r, by simp [hrs], rfl⟩)
    rw [hr] at hes
    cases hes

/-- A walk that succeeds leaves what its emissions are. -/
theorem emissions_of_body_ok (hlimit : site.options.nodeLimit = none)
    (h : Walk.body site scope p = .ok () q) :
    (site.emissions scope.references).error = none ∧
      q.graph = (p.recordAll site.options.traceEdges
        (site.emissions scope.references).edges).graph := by
  rw [Walk.body_apply hlimit, Emissions.run] at h
  cases herror : (site.emissions scope.references).error with
  | some e => simp [herror] at h
  | none =>
      rw [herror] at h
      cases h
      exact ⟨rfl, rfl⟩

/-- Without a limit a body is walked as the uses in it say. -/
theorem walkedAs_uses (hlimit : site.options.nodeLimit = none) (scope : Scope) :
    site.WalkedAs scope scope.uses where
  succeeds p := by
    rw [← error_emissions_iff_outcomes, Walk.body_apply hlimit, Emissions.run]
    cases (site.emissions scope.references).error <;> simp
  edges p q h x := by
    obtain ⟨herror, hgraph⟩ := emissions_of_body_ok hlimit h
    rw [hgraph, Progress.mem_edges_recordAll, mem_edges_emissions_iff_outcomes herror]
  nodes p q h n := by
    obtain ⟨herror, hgraph⟩ := emissions_of_body_ok hlimit h
    rw [hgraph, Progress.mem_nodes_recordAll]
    refine or_congr_right ⟨?_, ?_⟩
    · rintro ⟨x, hx, hn⟩
      obtain ⟨es, hes, hmem⟩ := (mem_edges_emissions_iff_outcomes herror).1 hx
      exact ⟨es, hes, x, hmem, hn⟩
    · rintro ⟨es, hes, x, hx, hn⟩
      exact ⟨x, (mem_edges_emissions_iff_outcomes herror).2 ⟨es, hes, hx⟩, hn⟩

/-- Only the outcomes matter, in any order. -/
theorem WalkedAs.congr (h : site.WalkedAs scope us)
    (hsame : ∀ o, o ∈ site.outcomes us ↔ o ∈ site.outcomes us') : site.WalkedAs scope us' where
  succeeds p := (h.succeeds p).trans (forall_congr' fun o => imp_congr_left (hsame o))
  edges p q hq x := by simp only [h.edges p q hq, hsame]
  nodes p q hq n := by simp only [h.nodes p q hq, hsame]

/-- Bodies that are walked as the same uses say are walked alike. -/
theorem WalkedAs.walksAlike (h : site.WalkedAs scope us) (h' : site.WalkedAs scope' us) :
    site.WalksAlike scope scope' where
  succeeds p := (h.succeeds p).trans (h'.succeeds p).symm
  records p q q' hq hq' :=
    ⟨fun n => (h.nodes p q hq n).trans (h'.nodes p q' hq' n).symm,
      fun x => (h.edges p q hq x).trans (h'.edges p q' hq' x).symm⟩

end Site

end CallGraphs
