import CallGraphs.Proofs.Settings

/-!
# CallGraphs.Proofs.Tracing

Reports of single edges change nothing else.  A construction without them
does what one with them does, and its events are the others.

* `relates_untraced` — the elementary steps;
* `build_untraced` — constructions.
-/

namespace CallGraphs

/-! ## reports of single edges -/

/-- Whether an event reports a single edge. -/
def Event.isEdge : Event → Bool
  | .edge _ _ _ => true
  | .exhaustiveStart _ => false
  | .demandDrivenStart _ _ => false
  | .walking _ _ => false
  | .bodyless _ => false
  | .enqueued _ => false
  | .built _ => false

/-- The events of a log that do not report a single edge. -/
def Event.untraced (log : List Event) : List Event := log.filter fun e => !e.isEdge

/-- A construction without the reports of single edges. -/
def Progress.untraced (p : Progress) : Progress := { p with events := Event.untraced p.events }

/-- The report on a construction without the reports of single edges. -/
def Builder.Report.untraced {ε : Type} (r : Builder.Report ε) : Builder.Report ε :=
  { r with events := Event.untraced r.events }

namespace Event

/-- An event that reports no single edge stays in the log. -/
theorem untraced_append_of_not_isEdge (log : List Event) {e : Event} (h : e.isEdge = false) :
    untraced (log ++ [e]) = untraced log ++ [e] := by
  simp [untraced, h]

theorem untraced_cons_of_not_isEdge (log : List Event) {e : Event} (h : e.isEdge = false) :
    untraced (e :: log) = e :: untraced log := by
  simp [untraced, h]

/-- One that does is left out. -/
theorem untraced_append_edge (log : List Event) (caller callee : Node) (inserted : Bool) :
    untraced (log ++ [.edge caller callee inserted]) = untraced log := by
  simp [untraced, isEdge]

end Event

namespace Progress

/-- An edge is stored without its report. -/
theorem untraced_store (p : Progress) (e : Edge) :
    (p.store true e).untraced = p.untraced.store false e := by
  have hevents : Event.untraced (p.store true e).events = Event.untraced p.events :=
    Event.untraced_append_edge p.events e.caller e.callee _
  rw [untraced, hevents]
  rfl

/-- An offer is reported in either case. -/
theorem untraced_offer (p : Progress) (n : Node) : (p.offer n).untraced = p.untraced.offer n := by
  cases haccepted : (p.worklist.offer n).1 with
  | false => simp [offer, untraced, haccepted]
  | true =>
      have hevents := Event.untraced_append_of_not_isEdge p.events (e := .enqueued n) rfl
      simp [offer, untraced, haccepted, hevents]

end Progress

/-! ## steps -/

namespace Build

variable {α β : Type} {x y : Build α}

/-- The result of a step without the reports of single edges. -/
def untracedResult (r : EStateM.Result BuildError Progress α) :
    EStateM.Result BuildError Progress α :=
  match r with
  | .ok a q => .ok a q.untraced
  | .error e q => .error e q.untraced

/-- A step that reports no single edges does what another one does. -/
def Untraced (x y : Build α) : Prop := ∀ p, x p.untraced = untracedResult (y p)

theorem Untraced.bind {f g : α → Build β} (h : Untraced x y) (hrest : ∀ a, Untraced (f a) (g a)) :
    Untraced (x >>= f) (y >>= g) := by
  intro p
  rw [bind_apply, bind_apply, h p]
  cases y p with
  | error e q => rfl
  | ok a q => exact hrest a q

/-- A step that reports an event, but no single edge. -/
theorem Untraced.report {e : Event} (h : e.isEdge = false) :
    Untraced (Build.report e) (Build.report e) := by
  intro p
  have hevents := Event.untraced_append_of_not_isEdge p.events h
  rw [report_apply, report_apply, untracedResult, Progress.untraced, Progress.untraced, hevents]

/-- Watching the limit. -/
theorem Untraced.checkLimit (nodeLimit : Option Nat) :
    Untraced (Build.checkLimit ⟨nodeLimit, false⟩) (Build.checkLimit ⟨nodeLimit, true⟩) := by
  intro p
  rw [checkLimit_apply, checkLimit_apply]
  cases nodeLimit with
  | none => rfl
  | some limit =>
      dsimp only
      by_cases habove : limit < p.graph.nodeCount
      · rw [if_pos habove]
        exact if_pos habove
      · rw [if_neg habove]
        exact if_neg habove

/-- Recording an edge, with and without its report. -/
theorem Untraced.record (nodeLimit : Option Nat) (e : Edge) :
    Untraced (Build.record ⟨nodeLimit, false⟩ e) (Build.record ⟨nodeLimit, true⟩ e) := by
  intro p
  rw [record_apply, record_apply]
  have hcheck := Untraced.checkLimit nodeLimit (p.store true e)
  rw [Progress.untraced_store] at hcheck
  rw [hcheck]
  cases Build.checkLimit ⟨nodeLimit, true⟩ (p.store true e) with
  | error err q => rfl
  | ok u q => exact congrArg (EStateM.Result.ok ()) (q.untraced_offer e.callee).symm

/-- The steps without reports of single edges do what those with them do. -/
theorem relates_untraced (nodeLimit : Option Nat) :
    Relates ⟨nodeLimit, false⟩ ⟨nodeLimit, true⟩ fun _ => Untraced where
  pure _ _ := rfl
  throw _ _ := rfl
  bind h hrest := h.bind hrest
  count _ := rfl
  bodyless _ := .report rfl
  walking _ p := Untraced.report rfl p
  noteChain _ _ := rfl
  next p := by
    rw [Builder.next_apply, Builder.next_apply, Progress.untraced]
    cases p.worklist.pop <;> rfl
  enter n p := Untraced.checkLimit nodeLimit { p with graph := p.graph.addNode n }
  record := Untraced.record nodeLimit

end Build

/-! ## constructions -/

namespace Builder

/-- A report without those of single edges is the one on a run without them. -/
theorem untraced_report (mode : Mode) {start : Event} (hstart : start.isEdge = false)
    (r : EStateM.Result BuildError Progress Bool) :
    report mode start (Build.untracedResult r) = (report mode start r).untraced := by
  cases r with
  | error e q =>
      have hevents := Event.untraced_cons_of_not_isEdge q.events hstart
      simp only [Build.untracedResult, report, Report.untraced, Progress.untraced, hevents]
  | ok done q =>
      cases done with
      | false =>
          have hevents := Event.untraced_cons_of_not_isEdge q.events hstart
          simp only [Build.untracedResult, report, Report.untraced, Progress.untraced, hevents]
      | true =>
          have hlast := Event.untraced_append_of_not_isEdge (start :: q.events)
            (e := .built (statistics mode q)) rfl
          rw [Event.untraced_cons_of_not_isEdge q.events hstart] at hlast
          simp only [Build.untracedResult, report, Report.untraced, hlast]
          rfl

/-- Switching reports of single edges on adds these events and changes nothing
else. -/
theorem build_untraced (combiner : Combiner) (nodeLimit : Option Nat) (program : Program)
    (entryPoints : List QualifiedName) (looks : Nat) :
    (⟨combiner, ⟨nodeLimit, false⟩⟩ : Builder).build program entryPoints looks =
      ((⟨combiner, ⟨nodeLimit, true⟩⟩ : Builder).build program entryPoints looks).untraced := by
  have hrun : (⟨combiner, ⟨nodeLimit, false⟩⟩ : Builder).run program entryPoints looks
      (start entryPoints) = Build.untracedResult
        ((⟨combiner, ⟨nodeLimit, true⟩⟩ : Builder).run program entryPoints looks
          (start entryPoints)) :=
    (Build.relates_untraced nodeLimit).run program entryPoints looks (start entryPoints)
  rw [build_eq_report, build_eq_report, hrun, untraced_report]
  split <;> rfl

end Builder

end CallGraphs
