import CallGraphs.Build.Progress

/-!
# CallGraphs.Proofs.Recording

Steps of a construction as functions of its state.  Recording an edge stores
it and, unless the graph is too large by then, offers its callee to the
worklist.  Without a limit neither one edge nor several can fail.

* `record_apply` — recording one edge;
* `forM_record` — recording several edges without a limit;
* `forM_record_eq_ok` — recording them without an error, with a limit or without;
* `mem_nodes_recordAll`, `mem_edges_recordAll` — the graph afterwards;
* `mem_accepted_recordAll` — the worklist afterwards.
-/

namespace CallGraphs

/-! ## steps -/

/-- What comes after a step goes on from its state, unless the step failed. -/
theorem bind_apply {ε σ α β : Type} (x : EStateM ε σ α) (f : α → EStateM ε σ β) (s : σ) :
    (x >>= f) s =
      match x s with
      | .ok a s' => f a s'
      | .error e s' => .error e s' := by
  show EStateM.bind x f s = _
  rw [EStateM.bind]
  cases x s <;> rfl

theorem ofExcept_apply {σ α : Type} (x : Except BuildError α) (s : σ) :
    (MonadExcept.ofExcept x : EStateM BuildError σ α) s =
      match x with
      | .ok a => .ok a s
      | .error e => .error e s := by
  cases x <;> rfl

/-- Loops whose steps are the same are the same. -/
theorem forM_eq_of_map_eq {m : Type → Type} [Monad m] [LawfulMonad m] {α β : Type}
    {xs : List α} {ys : List β} {f : α → m Unit} {g : β → m Unit} (h : xs.map f = ys.map g) :
    forM xs f = forM ys g := by
  rw [← List.forM_map (g := f) (f := fun x => x), h, List.forM_map]

/-! ## accepted nodes -/

namespace Worklist

/-- The nodes that were ever accepted: those that are pending and those that
came out. -/
def accepted (w : Worklist) : List Node := w.pending ++ w.resolved

/-- The nodes that came out are distinct. -/
theorem resolved_nodup (w : Worklist) : w.resolved.Nodup :=
  (List.nodup_append.1 w.nodup).2.1

@[simp] theorem active_offer (w : Worklist) (n : Node) : (w.offer n).2.active = w.active := by
  unfold offer
  split <;> rfl

@[simp] theorem resolved_offer (w : Worklist) (n : Node) :
    (w.offer n).2.resolved = w.resolved := by
  unfold offer
  split <;> rfl

/-- After an offer, the node is among those that an active worklist has
accepted. -/
theorem mem_accepted_offer {w : Worklist} (h : w.active = true) {n x : Node} :
    x ∈ (w.offer n).2.accepted ↔ x ∈ w.accepted ∨ x = n := by
  unfold offer
  split
  · simp [accepted, or_comm]
  · rename_i hn
    have hmem : n ∈ w.accepted := by
      simp only [h, true_and, Classical.not_not] at hn
      exact hn
    exact ⟨.inl, fun hx => hx.elim id fun e => e ▸ hmem⟩

/-- An offer makes a worklist, active or not, accept nothing but the node. -/
theorem mem_accepted_of_mem_offer {w : Worklist} {n x : Node} (h : x ∈ (w.offer n).2.accepted) :
    x ∈ w.accepted ∨ x = n := by
  unfold offer at h
  split at h
  · simpa [accepted, or_comm] using h
  · exact .inl h

/-- A node that comes out was accepted. -/
theorem next_mem_accepted {w w' : Worklist} {n : Node} (h : w.pop = some (n, w')) :
    n ∈ w.accepted := by
  simp [accepted, (pop_eq_some h).1]

/-- Taking a node out does not change which nodes were accepted. -/
theorem mem_accepted_of_pop {w w' : Worklist} {n x : Node} (h : w.pop = some (n, w')) :
    x ∈ w'.accepted ↔ x ∈ w.accepted := by
  obtain ⟨hpending, hresolved, -⟩ := pop_eq_some h
  simp only [accepted, hpending, hresolved, List.mem_append, List.mem_cons]
  grind

end Worklist

/-! ## recording one edge -/

namespace Progress

/-- A construction after an edge was stored. -/
def store (traceEdges : Bool) (p : Progress) (e : Edge) : Progress :=
  { p with
    graph := (p.graph.addDependency e).2
    events :=
      if traceEdges then p.events ++ [.edge e.caller e.callee (p.graph.addDependency e).1]
      else p.events }

/-- A construction after a node was offered to its worklist. -/
def offer (p : Progress) (n : Node) : Progress :=
  { p with
    worklist := (p.worklist.offer n).2
    events := if (p.worklist.offer n).1 then p.events ++ [.enqueued n] else p.events }

/-- A construction after an edge was recorded. -/
def record (traceEdges : Bool) (p : Progress) (e : Edge) : Progress :=
  (p.store traceEdges e).offer e.callee

@[simp] theorem graph_record (traceEdges : Bool) (p : Progress) (e : Edge) :
    (p.record traceEdges e).graph = (p.graph.addDependency e).2 := rfl

@[simp] theorem worklist_record (traceEdges : Bool) (p : Progress) (e : Edge) :
    (p.record traceEdges e).worklist = (p.worklist.offer e.callee).2 := rfl

/-- A construction after several edges were recorded. -/
def recordAll (traceEdges : Bool) (p : Progress) (es : List Edge) : Progress :=
  es.foldl (record traceEdges) p

/-- A construction after chains were noted. -/
def note (p : Progress) (chains : List (List Substitution)) : Progress :=
  { p with chains := p.chains ++ chains }

@[simp] theorem graph_note (p : Progress) (chains : List (List Substitution)) :
    (p.note chains).graph = p.graph := rfl

@[simp] theorem worklist_note (p : Progress) (chains : List (List Substitution)) :
    (p.note chains).worklist = p.worklist := rfl

@[simp] theorem events_note (p : Progress) (chains : List (List Substitution)) :
    (p.note chains).events = p.events := rfl

end Progress

namespace Build

/-- A construction after a step, whether or not that failed. -/
def after {α : Type} (step : Build α) (p : Progress) : Progress :=
  match step p with
  | .ok _ q => q
  | .error _ q => q

theorem addDependency_apply (e : Edge) (p : Progress) :
    addDependency e p =
      .ok (p.graph.addDependency e).1 { p with graph := (p.graph.addDependency e).2 } := rfl

theorem offer_apply (n : Node) (p : Progress) :
    offer n p = .ok (p.worklist.offer n).1 { p with worklist := (p.worklist.offer n).2 } := rfl

theorem report_apply (event : Event) (p : Progress) :
    report event p = .ok () { p with events := p.events ++ [event] } := rfl

theorem noteChain_apply (chain : List Substitution) (p : Progress) :
    noteChain chain p = .ok () (p.note [chain]) := rfl

/-- The graph is within the limit, or the construction fails. -/
theorem checkLimit_cases (options : Options) (p : Progress) :
    (checkLimit options p = .ok () p ∧
      ∀ limit, options.nodeLimit = some limit → p.graph.nodeCount ≤ limit) ∨
    ∃ limit, checkLimit options p = .error (.nodeLimitExceeded limit) p := by
  rw [← checkLimit_ok_iff, and_self_iff, checkLimit_apply]
  cases options.nodeLimit with
  | none => exact .inl rfl
  | some limit =>
      by_cases habove : limit < p.graph.nodeCount
      · exact .inr ⟨limit, if_pos habove⟩
      · exact .inl (if_neg habove)

/-- An error that the limit gives. -/
def LimitError (options : Options) (e : BuildError) : Prop :=
  ∃ limit, options.nodeLimit = some limit ∧ e = .nodeLimitExceeded limit

/-- Watching the limit gives no other error. -/
theorem limitError_of_checkLimit {options : Options} {e : BuildError} {p q : Progress}
    (h : checkLimit options p = .error e q) : LimitError options e := by
  rw [checkLimit_apply] at h
  cases hlimit : options.nodeLimit with
  | none =>
      rw [hlimit] at h
      cases h
  | some limit =>
      rw [hlimit] at h
      dsimp only at h
      split at h
      · cases h
        exact ⟨limit, hlimit, rfl⟩
      · cases h

/-- Recording an edge stores it, and offers its callee unless there are too
many nodes by then. -/
theorem record_apply (options : Options) (e : Edge) (p : Progress) :
    record options e p =
      match checkLimit options (p.store options.traceEdges e) with
      | .ok _ q => .ok () (q.offer e.callee)
      | .error err q => .error err q := by
  have hoffer (q : Progress) :
      (do
        let accepted ← offer e.callee
        if accepted then report (.enqueued e.callee) : Build Unit) q =
          .ok () (q.offer e.callee) := by
    rw [bind_apply, offer_apply]
    cases haccepted : (q.worklist.offer e.callee).1 <;>
      simp [Progress.offer, haccepted, report_apply, pure, EStateM.pure]
  rw [record, bind_apply, addDependency_apply]
  cases htrace : options.traceEdges with
  | false =>
      show (checkLimit options >>= fun _ => _) (p.store false e) = _
      rw [bind_apply]
      cases checkLimit options (p.store false e) with
      | error err q => rfl
      | ok u q => exact hoffer q
  | true =>
      show (checkLimit options >>= fun _ => _) (p.store true e) = _
      rw [bind_apply]
      cases checkLimit options (p.store true e) with
      | error err q => rfl
      | ok u q => exact hoffer q

/-- Without a limit recording an edge never fails. -/
theorem record_of_unlimited {options : Options} (h : options.nodeLimit = none) (e : Edge)
    (p : Progress) : record options e p = .ok () (p.record options.traceEdges e) := by
  rw [record_apply, checkLimit_apply, h]
  rfl

/-- Nor does recording several edges. -/
theorem forM_record {options : Options} (h : options.nodeLimit = none) (es : List Edge)
    (p : Progress) :
    forM es (record options) p = .ok () (p.recordAll options.traceEdges es) := by
  induction es generalizing p with
  | nil => rfl
  | cons e es ih =>
      rw [List.forM_cons, bind_apply, record_of_unlimited h]
      exact ih _

/-- Recording an edge without an error stores it and offers its callee, with a
limit or without. -/
theorem record_eq_ok {options : Options} {e : Edge} {p q : Progress}
    (h : record options e p = .ok () q) : q = p.record options.traceEdges e := by
  rw [record_apply] at h
  obtain ⟨hwithin, -⟩ | ⟨limit, hbeyond⟩ := checkLimit_cases options (p.store options.traceEdges e)
  · rw [hwithin] at h
    cases h
    rfl
  · rw [hbeyond] at h
    cases h

/-- So does recording several edges. -/
theorem forM_record_eq_ok {options : Options} {es : List Edge} {p q : Progress}
    (h : forM es (record options) p = .ok () q) : q = p.recordAll options.traceEdges es := by
  induction es generalizing p with
  | nil =>
      cases h
      rfl
  | cons e es ih =>
      rw [List.forM_cons, bind_apply] at h
      cases hfirst : record options e p with
      | error err q' => simp [hfirst] at h
      | ok u q' =>
          rw [hfirst] at h
          rw [ih h, record_eq_ok hfirst]
          rfl

/-- Recording an edge fails because of the limit only. -/
theorem limitError_of_record {options : Options} {e : Edge} {p q : Progress} {err : BuildError}
    (h : record options e p = .error err q) : LimitError options err := by
  rw [record_apply] at h
  cases hlimit : checkLimit options (p.store options.traceEdges e) with
  | ok u q' =>
      rw [hlimit] at h
      cases h
  | error err' q' =>
      rw [hlimit] at h
      cases h
      exact limitError_of_checkLimit hlimit

/-- So does recording several edges. -/
theorem limitError_of_forM_record {options : Options} {es : List Edge} {p q : Progress}
    {err : BuildError} (h : forM es (record options) p = .error err q) :
    LimitError options err := by
  induction es generalizing p with
  | nil => cases h
  | cons e es ih =>
      rw [List.forM_cons, bind_apply] at h
      cases hfirst : record options e p with
      | error err' q' =>
          rw [hfirst] at h
          cases h
          exact limitError_of_record hfirst
      | ok u q' =>
          rw [hfirst] at h
          exact ih h

end Build

/-! ## recording several edges -/

namespace Progress

variable {traceEdges : Bool} {p : Progress} {es : List Edge}

@[simp] theorem recordAll_nil (traceEdges : Bool) (p : Progress) :
    p.recordAll traceEdges [] = p := rfl

@[simp] theorem recordAll_cons (traceEdges : Bool) (p : Progress) (e : Edge) (es : List Edge) :
    p.recordAll traceEdges (e :: es) = (p.record traceEdges e).recordAll traceEdges es := rfl

theorem recordAll_append (traceEdges : Bool) (p : Progress) (es es' : List Edge) :
    p.recordAll traceEdges (es ++ es') =
      (p.recordAll traceEdges es).recordAll traceEdges es' := by
  simp [recordAll]

theorem note_note (p : Progress) (chains chains' : List (List Substitution)) :
    (p.note chains).note chains' = p.note (chains ++ chains') := by
  simp [note]

/-- Noting chains and recording edges do not interfere. -/
theorem recordAll_note (traceEdges : Bool) (p : Progress) (chains : List (List Substitution))
    (es : List Edge) :
    (p.note chains).recordAll traceEdges es = (p.recordAll traceEdges es).note chains := by
  induction es generalizing p with
  | nil => rfl
  | cons e es ih => exact ih (p.record traceEdges e)

/-- Recording edges adds their ends to the graph. -/
theorem mem_nodes_recordAll {x : Node} :
    x ∈ (p.recordAll traceEdges es).graph.nodes ↔
      x ∈ p.graph.nodes ∨ ∃ e ∈ es, x = e.caller ∨ x = e.callee := by
  induction es generalizing p with
  | nil => simp
  | cons e es ih =>
      rw [recordAll_cons, ih]
      simp only [graph_record, CallGraph.mem_nodes_addDependency, List.mem_cons,
        exists_eq_or_imp, or_assoc]

/-- Recording edges adds them to the graph. -/
theorem mem_edges_recordAll {x : Edge} :
    x ∈ (p.recordAll traceEdges es).graph.edges ↔ x ∈ p.graph.edges ∨ x ∈ es := by
  induction es generalizing p with
  | nil => simp
  | cons e es ih =>
      rw [recordAll_cons, ih]
      simp only [graph_record, CallGraph.mem_edges_addDependency, List.mem_cons, or_assoc]

@[simp] theorem active_recordAll :
    (p.recordAll traceEdges es).worklist.active = p.worklist.active := by
  induction es generalizing p with
  | nil => rfl
  | cons e es ih => rw [recordAll_cons, ih]; simp

@[simp] theorem resolved_recordAll :
    (p.recordAll traceEdges es).worklist.resolved = p.worklist.resolved := by
  induction es generalizing p with
  | nil => rfl
  | cons e es ih => rw [recordAll_cons, ih]; simp

/-- Recording edges makes an active worklist accept their callees. -/
theorem mem_accepted_recordAll (h : p.worklist.active = true) {x : Node} :
    x ∈ (p.recordAll traceEdges es).worklist.accepted ↔
      x ∈ p.worklist.accepted ∨ ∃ e ∈ es, x = e.callee := by
  induction es generalizing p with
  | nil => simp
  | cons e es ih =>
      have hactive : (p.record traceEdges e).worklist.active = true := by simpa using h
      rw [recordAll_cons, ih hactive]
      simp only [worklist_record, Worklist.mem_accepted_offer h, List.mem_cons,
        exists_eq_or_imp, or_assoc]

@[simp] theorem processed_recordAll :
    (p.recordAll traceEdges es).processed = p.processed := by
  induction es generalizing p with
  | nil => rfl
  | cons e es ih => exact ih

end Progress

end CallGraphs
