import CallGraphs.Proofs.Emissions
import CallGraphs.Proofs.Outlines

/-!
# CallGraphs.Proofs.Restoration

What a walk of an expression leaves of its surroundings.  It comes back to the
context in which it began, and the substitutions that waited are still there
unless a reference took them.  So nothing is carried from one root expression of
a body to the next, however deep in scopes they stand.

* `references_eq_nil_iff` — when an expression holds no reference;
* `root_mem_stops_iff` — the root expressions of a body;
* `visitPart_eq_forM_stops` — a walk of a body, root expression by root expression;
* `replaysRoots_forM` — every root expression begins as the body does;
* `visitExpression_restores` — the surroundings of an expression.
-/

namespace CallGraphs

/-! ## references inside an expression -/

/-- A reference to a callable stands in the expression, at the end of some path. -/
def Expression.HoldsReference (e : Expression) : Prop :=
  ∃ path inner name, (Part.expression e).at? (fun _ => false) path = some (.expression inner) ∧
    inner.form = .identifier (.callable name)

namespace Part

variable {p q : Part} {target : Identifier} {e : Expression}

/-- The parts that are identifiers are the expressions of that form. -/
theorem identifier?_eq_some_iff :
    p.identifier? = some (target, e) ↔ p = .expression e ∧ e.form = .identifier target := by
  cases p with
  | scope body => simp [identifier?]
  | statement s => simp [identifier?]
  | expression inner =>
      obtain ⟨form, type, map⟩ := inner
      cases form <;> grind [identifier?]

/-- The parts that a traversal comes to if it skips nothing are those at the ends
of paths. -/
theorem mem_reached_iff :
    (q ∈ p.reached fun _ => false) ↔ ∃ path, p.at? (fun _ => false) path = some q := by
  simp only [reached, List.mem_map, Prod.exists, exists_eq_right, mem_visits_iff]

/-- A traversal that skips nothing comes to a part and to what it comes to in
the children. -/
theorem mem_reached_cons_iff :
    (q ∈ p.reached fun _ => false) ↔
      q = p ∨ ∃ c ∈ p.children, q ∈ c.reached fun _ => false := by
  rw [reached_eq]
  simp

/-- Expressions hold no statements. -/
theorem not_mem_reached_expression (p : Part) (s : Statement) (hp : p = .expression e) :
    .statement s ∉ p.reached fun _ => false := by
  induction p using Part.induction generalizing e with
  | step p ih =>
      subst hp
      rw [mem_reached_cons_iff]
      rintro (hs | ⟨c, hc, hs⟩)
      · cases hs
      · obtain ⟨o, -, rfl⟩ := List.mem_map.1 hc
        exact ih _ hc rfl hs

end Part

namespace Expression

/-- The references of an expression are its identifiers that name callables. -/
theorem map_name_references (e : Expression) :
    e.references.map (·.name) =
      (((Part.expression e).reached fun _ => false).filterMap Part.identifier?).filterMap
        fun i => i.1.callable? := by
  have hfinds := Identifier.collector_reads.visitExpression e []
  have hcollected := Identifier.collector_visitPart (.expression e)
  rw [List.filterMap_nil, List.nil_append] at hfinds
  rw [← hfinds]
  refine (congrArg (List.filterMap Identifier.callable?) hcollected).trans ?_
  rw [List.filterMap_map]
  rfl

/-- An expression has no references if none stands in it. -/
theorem references_eq_nil_iff (e : Expression) : e.references = [] ↔ ¬ e.HoldsReference := by
  rw [← List.map_eq_nil_iff (f := (·.name)), map_name_references, List.filterMap_eq_nil_iff]
  constructor
  · rintro hnone ⟨path, inner, name, hpath, hform⟩
    have hidentifier : (.callable name, inner) ∈
        ((Part.expression e).reached fun _ => false).filterMap Part.identifier? :=
      List.mem_filterMap.2 ⟨.expression inner, Part.mem_reached_iff.2 ⟨path, hpath⟩,
        Part.identifier?_eq_some_iff.2 ⟨rfl, hform⟩⟩
    cases hnone _ hidentifier
  · intro hnot i hi
    obtain ⟨part, hpart, hidentifier⟩ := List.mem_filterMap.1 hi
    obtain ⟨rfl, hform⟩ := Part.identifier?_eq_some_iff.1 hidentifier
    obtain ⟨path, hpath⟩ := Part.mem_reached_iff.1 hpart
    obtain ⟨target, inner⟩ := i
    cases target with
    | callable name => exact absurd ⟨path, inner, name, hpath, hform⟩ hnot
    | localVariable name => rfl

end Expression

/-! ## root expressions -/

/-- What a walk comes to in a body: a statement begins, or a root expression. -/
inductive Stop where
  | statement
  | root (e : Expression)

/-- The references at a stop. -/
def Stop.references : Stop → List Reference
  | .statement => []
  | .root e => e.references

namespace Part

variable {p : Part} {e : Expression}

/-- The stops in a part, in the order of visits: every statement begins before
its parts, and every expression right below a statement is a root expression. -/
def stops : Part → List Stop
  | .scope body => body.attach.flatMap fun s => stops (.statement s.1)
  | .statement s => .statement :: s.parts.attach.flatMap fun p => stops p.1
  | .expression e => [.root e]
termination_by p => sizeOf p
decreasing_by
  · exact sizeOf_lt_of_mem_children (List.mem_map_of_mem s.2)
  · exact sizeOf_lt_of_mem_children p.2

@[simp] theorem stops_scope (body : Scope) :
    (Part.scope body).stops = (body.map Part.statement).flatMap stops := by
  rw [stops, List.flatMap_map]
  conv_rhs => rw [← List.attach_map_subtype_val body, List.flatMap_map]

@[simp] theorem stops_statement (s : Statement) :
    (Part.statement s).stops = .statement :: s.parts.flatMap stops := by
  rw [stops]
  conv_rhs => rw [← List.attach_map_subtype_val s.parts, List.flatMap_map]

@[simp] theorem stops_expression (e : Expression) : (Part.expression e).stops = [.root e] := by
  rw [stops]

/-- The root expressions among the stops of a part are those right below its
statements. -/
theorem root_mem_stops_iff :
    .root e ∈ p.stops ↔
      p = .expression e ∨
        ∃ s, (.statement s ∈ p.reached fun _ => false) ∧ .expression e ∈ s.parts := by
  induction p using Part.induction with
  | step p ih =>
      have hbelow : (∃ c ∈ p.children, .root e ∈ c.stops) ↔
          .expression e ∈ p.children ∨
            ∃ s, (∃ c ∈ p.children, .statement s ∈ c.reached fun _ => false) ∧
              .expression e ∈ s.parts := by
        constructor
        · rintro ⟨c, hc, hroot⟩
          obtain rfl | ⟨s, hs, he⟩ := (ih c hc).1 hroot
          · exact .inl hc
          · exact .inr ⟨s, ⟨c, hc, hs⟩, he⟩
        · rintro (he | ⟨s, ⟨c, hc, hs⟩, he⟩)
          · exact ⟨_, he, (ih _ he).2 (.inl rfl)⟩
          · exact ⟨c, hc, (ih c hc).2 (.inr ⟨s, hs, he⟩)⟩
      have hreached (s : Statement) : (.statement s ∈ p.reached fun _ => false) ↔
          p = .statement s ∨ ∃ c ∈ p.children, .statement s ∈ c.reached fun _ => false := by
        rw [mem_reached_cons_iff, eq_comm]
      simp only [hreached]
      cases p with
      | scope body =>
          have hstops : .root e ∈ (Part.scope body).stops ↔
              ∃ c ∈ (Part.scope body).children, .root e ∈ c.stops := by
            simp [children]
          rw [hstops, hbelow]
          simp [children]
      | statement own =>
          have hstops : .root e ∈ (Part.statement own).stops ↔
              ∃ c ∈ (Part.statement own).children, .root e ∈ c.stops := by
            simp [children]
          rw [hstops, hbelow]
          simp [children, or_and_right, exists_or]
      | expression inner =>
          have hnone (s : Statement) :
              ¬ ∃ c ∈ (Part.expression inner).children, .statement s ∈ c.reached fun _ => false :=
            fun hs => not_mem_reached_expression _ s rfl ((hreached s).2 (.inr hs))
          simp [hnone, eq_comm]

end Part

namespace Walk

/-- What a walk does at a stop. -/
def pass (site : Site) : Stop → Walk Unit
  | .statement => clearStack
  | .root e => (visitor site).visitExpression e

/-- A walk of a part passes its stops in order, and does nothing else. -/
theorem visitPart_eq_forM_stops (site : Site) (p : Part) :
    (visitor site).visitPart p = forM p.stops (pass site) := by
  induction p using Part.induction with
  | step p ih =>
      have hchildren : forM p.children (visitor site).visitPart =
          forM (p.children.flatMap Part.stops) (pass site) := by
        rw [forM_flatMap]
        exact forM_eq_of_map_eq (List.map_congr_left ih)
      cases p with
      | scope body =>
          rw [Part.stops_scope]
          exact ((visitor site).visitStatements_eq body).trans hchildren
      | statement s =>
          have hparts := ((visitor site).visitParts_eq s).trans hchildren
          rw [Part.stops_statement, List.forM_cons]
          show (do clearStack; (visitor site).visitParts s) = _
          rw [hparts]
          rfl
      | expression e =>
          rw [Part.stops_expression, List.forM_cons, List.forM_nil]
          exact (bind_pure _).symm

/-- At every stop the walk begins and ends without context and with nothing
waiting, if it begins so. -/
theorem replaysRoots_pass (site : Site) (stop : Stop) :
    ReplaysRoots site (pass site stop) stop.references := by
  cases stop with
  | statement => exact fun _ => rfl
  | root e => exact (visitor_readsRoots site).root e

/-- And so it does along several stops. -/
theorem replaysRoots_forM (site : Site) (stops : List Stop) :
    ReplaysRoots site (forM stops (pass site)) (stops.flatMap Stop.references) := by
  induction stops with
  | nil => exact (visitor_readsRoots site).nil
  | cons stop stops ih => exact (replaysRoots_pass site stop).append ih

/-- A walk of an expression comes back to the context that it began with, also
if it fails.  If it does not fail, the stack is the one that it began with if no
reference stands in the expression, and empty otherwise.  A walk of a body passes
its stops one after the other, among them the expressions right below every
statement, at any depth; and as far as it comes, each of these expressions is
entered in the initial context with nothing waiting. -/
theorem visitExpression_restores (site : Site) :
    (∀ (e : Expression) (s : State),
      match (visitor site).visitExpression e s with
      | .ok _ s' =>
        s'.context = s.context ∧ (¬ e.HoldsReference → s'.stack = s.stack) ∧
          (e.HoldsReference → s'.stack = ∅)
      | .error _ s' => s'.context = s.context) ∧
    ∀ body : Scope,
      (∀ e, .root e ∈ (Part.scope body).stops ↔
        ∃ path s, (Part.scope body).at? (fun _ => false) path = some (.statement s) ∧
          .expression e ∈ s.parts) ∧
      (visitor site).visitScope body = forM (Part.scope body).stops (pass site) ∧
      ∀ before e after, (Part.scope body).stops = before ++ .root e :: after →
        ∀ p s, forM before (pass site) ⟨p, .initial, ∅⟩ = .ok () s →
          s.context = .initial ∧ s.stack = ∅ := by
  refine ⟨fun e s => ?_, fun body =>
    ⟨fun e => ?_, visitPart_eq_forM_stops site (.scope body), ?_⟩⟩
  · have hleft : (¬ e.HoldsReference → left s.stack e.references = s.stack) ∧
        (e.HoldsReference → left s.stack e.references = ∅) := by
      have hnil := e.references_eq_nil_iff
      cases hreferences : e.references with
      | nil => exact ⟨fun _ => rfl, fun hholds => absurd hholds (hnil.1 hreferences)⟩
      | cons r rs =>
          have hne : e.references ≠ [] := by simp [hreferences]
          exact ⟨fun hnot => absurd (hnil.2 hnot) hne, fun _ => rfl⟩
    rw [(visitor_reads site).visitExpression e s]
    cases replay site s.context s.stack.maps e.references s.progress with
    | ok u p => exact ⟨rfl, hleft⟩
    | error err p => rfl
  · rw [Part.root_mem_stops_iff, exists_comm]
    simp [Part.mem_reached_iff]
  · intro before e after _ p s hs
    rw [replaysRoots_forM site before p] at hs
    cases hreplay : replay site .initial [] (before.flatMap Stop.references) p with
    | ok u q =>
        rw [hreplay] at hs
        cases hs
        exact ⟨rfl, rfl⟩
    | error err q =>
        rw [hreplay] at hs
        cases hs

/-- The reference in the body of a loop is entered as its condition is, although
the condition refers to a callable as well. -/
theorem visitExpression_restores_loop_body :
    let name (s : String) : QualifiedName := ⟨"Test", s⟩
    let reference (s : String) : Expression := ⟨.identifier (.callable (name s)), .missing, ∅⟩
    let operation : Expression := ⟨.adjoint (reference "F"), .missing, ∅⟩
    let body : Scope := [.whileLoop (reference "P") [.expression operation]]
    let before : List Stop := [.statement, .root (reference "P"), .statement]
    let site : Site :=
      { find? := fun n => some ⟨n, .operation, [], []⟩
        combiner := Combiner.compose
        caller := ⟨name "Main", .body, none⟩
        resolutions := ∅
        options := ⟨none, false⟩ }
    (Part.scope body).stops = before ++ .root operation :: [] ∧
    ∀ p, ∃ s, forM before (pass site) ⟨p, .initial, ∅⟩ = .ok () s ∧
      s.context = .initial ∧ s.stack = ∅ := by
  intro name reference operation body before site
  have hstops : (Part.scope body).stops = before ++ .root operation :: [] := by
    simp [body, before, Statement.parts]
  refine ⟨hstops, fun p => ?_⟩
  have herror : (site.emissions (before.flatMap Stop.references)).error = none := by decide +kernel
  have hs : forM before (pass site) ⟨p, .initial, ∅⟩ =
      .ok () ⟨(site.emissions (before.flatMap Stop.references)).record site p, .initial, ∅⟩ := by
    rw [replaysRoots_forM, replay_nil_eq_forM]
    simp only [variants_contextIn]
    rw [Site.forM_emit rfl, Emissions.run, herror]
    rfl
  exact ⟨_, hs, ((visitExpression_restores site).2 body).2.2 before operation [] hstops p _ hs⟩

end Walk

end CallGraphs
