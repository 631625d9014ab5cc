import CallGraphs.Proofs.Closure

/-!
# CallGraphs.Proofs.Accounting

The log of a construction accounts for its state.  How many nodes are pending,
how many specializations were processed and how many edges were stored can be
read off the events alone, whether or not the construction ends with a graph.

* `Accounts.store`, `Accounts.offer` — recording an edge keeps the accounts;
* `Accounts.processDeclared`, `Accounts.processNode` — so does a specialization or a node;
* `accounts_run` — the accounts of a whole run;
* `build_accounts` — what the log of a construction tells.
-/

namespace CallGraphs

/-! ## counting events -/

namespace Event

/-- Whether an event reports that the worklist accepted a node. -/
def isEnqueued : Event → Bool
  | .enqueued _ => true
  | .exhaustiveStart _ => false
  | .demandDrivenStart _ _ => false
  | .walking _ _ => false
  | .bodyless _ => false
  | .edge _ _ _ => false
  | .built _ => false

/-- Whether an event reports an edge that was new. -/
def isInsertion : Event → Bool
  | .edge _ _ inserted => inserted
  | .exhaustiveStart _ => false
  | .demandDrivenStart _ _ => false
  | .walking _ _ => false
  | .bodyless _ => false
  | .enqueued _ => false
  | .built _ => false

/-- How many nodes a log reports to be accepted by the worklist. -/
def enqueuedCount (log : List Event) : Nat := log.countP isEnqueued

/-- How many new edges a log reports. -/
def insertedCount (log : List Event) : Nat := log.countP isInsertion

/-- How many visits a log reports, to nodes with and without a body. -/
def visitCount (log : List Event) : Nat := log.countP fun e => e.visited?.isSome

variable {log : List Event} {e : Event}

@[simp] theorem enqueuedCount_concat :
    enqueuedCount (log ++ [e]) = enqueuedCount log + if e.isEnqueued then 1 else 0 := by
  simp [enqueuedCount, List.countP_singleton]

@[simp] theorem insertedCount_concat :
    insertedCount (log ++ [e]) = insertedCount log + if e.isInsertion then 1 else 0 := by
  simp [insertedCount, List.countP_singleton]

@[simp] theorem visitCount_concat :
    visitCount (log ++ [e]) = visitCount log + if e.visited?.isSome then 1 else 0 := by
  simp [visitCount, List.countP_singleton]

/-- As many visits are counted as there are nodes visited. -/
theorem visitCount_eq_length_visits (log : List Event) : visitCount log = (visits log).length :=
  (List.length_filterMap_eq_countP ..).symm

/-! ## walks in a log -/

/-- Every walk in a log is reported with a number of pending nodes that is as
it should be after the events before. -/
def EachWalk (expected : List Event → Nat → Prop) (log : List Event) : Prop :=
  ∀ before n pending, before ++ [.walking n pending] <+: log → expected before pending

variable {expected expected' : List Event → Nat → Prop}

theorem eachWalk_concat :
    EachWalk expected (log ++ [e]) ↔
      EachWalk expected log ∧ ∀ n pending, e = .walking n pending → expected log pending := by
  simp only [EachWalk, List.prefix_concat_iff]
  constructor
  · intro h
    refine ⟨fun before n pending hbefore => h before n pending (.inr hbefore), ?_⟩
    rintro n pending rfl
    exact h log n pending (.inl rfl)
  · rintro ⟨hlog, hlast⟩ before n pending (hbefore | hbefore)
    · obtain ⟨rfl, hwalking⟩ := List.append_inj' hbefore rfl
      exact hlast n pending (List.singleton_inj.1 hwalking).symm
    · exact hlog before n pending hbefore

/-- An event before the whole log. -/
theorem EachWalk.cons (h : EachWalk expected log) (he : e.visited? = none)
    (hexpected : ∀ before pending, expected before pending → expected' (e :: before) pending) :
    EachWalk expected' (e :: log) := by
  intro before n pending hbefore
  cases before with
  | nil =>
      obtain ⟨rfl, -⟩ := List.cons_prefix_cons.1 hbefore
      cases he
  | cons d before =>
      obtain ⟨rfl, hrest⟩ := List.cons_prefix_cons.1 hbefore
      exact hexpected before pending (h before n pending hrest)

/-- How many nodes should be pending when a walk is reported after the given
events: none in an exhaustive construction, and else the seeds of the worklist
and the nodes that it accepted since, less those that are visited by then. -/
def Expected (mode : Mode) (seeds : Nat) (before : List Event) (pending : Nat) : Prop :=
  match mode with
  | .exhaustive => pending = 0
  | .demandDriven => pending + (visitCount before + 1) = seeds + enqueuedCount before

/-- It does not matter whether other events come first. -/
theorem Expected.cons {mode : Mode} {seeds pending : Nat} (hvisited : e.visited? = none)
    (henqueued : e.isEnqueued = false) (h : Expected mode seeds log pending) :
    Expected mode seeds (e :: log) pending := by
  cases mode with
  | exhaustive => exact h
  | demandDriven => simpa [Expected, visitCount, enqueuedCount, hvisited, henqueued] using h

end Event

/-! ## visits -/

namespace Specialization

variable (s : Specialization) (n : Node) (pending : Nat)

@[simp] theorem visited?_visit : (s.visit n pending).visited? = some n := by
  rw [visit]
  cases s.body? <;> rfl

@[simp] theorem isEnqueued_visit : (s.visit n pending).isEnqueued = false := by
  rw [visit]
  cases s.body? <;> rfl

@[simp] theorem isInsertion_visit : (s.visit n pending).isInsertion = false := by
  rw [visit]
  cases s.body? <;> rfl

theorem built_ne_visit (st : Statistics) : .built st ≠ s.visit n pending := by
  rw [visit]
  cases s.body? <;> simp

variable {s n pending}

/-- A walk is reported with the number of pending nodes. -/
theorem eq_of_visit_eq_walking {m : Node} {k : Nat} (h : s.visit n pending = .walking m k) :
    pending = k := by
  rw [visit] at h
  cases hbody : s.body? with
  | none => simp [hbody] at h
  | some body =>
      simp only [hbody, Event.walking.injEq] at h
      exact h.2

end Specialization

/-! ## accounts -/

/-- A node that is offered is accepted by an active worklist, or nothing
happens. -/
theorem Worklist.offer_cases (w : Worklist) (n : Node) :
    ((w.offer n).1 = true ∧ w.active = true ∧ (w.offer n).2.pending = n :: w.pending) ∨
      w.offer n = (false, w) := by
  unfold offer
  split
  · rename_i h
    exact .inl ⟨rfl, h.1, rfl⟩
  · exact .inr rfl

/-- The log of a construction accounts for its state: the number of pending
nodes that is reported with each walk is as it should be, and so are the counts
of nodes that came out of the worklist, of processed specializations and of
edges.  In an exhaustive construction no node is ever accepted. -/
structure Progress.Accounts (traceEdges : Bool) (mode : Mode) (seeds : Nat) (p : Progress) :
    Prop where
  walks : Event.EachWalk (Event.Expected mode seeds) p.events
  taken : p.worklist.pendingCount + p.worklist.resolved.length =
    seeds + Event.enqueuedCount p.events
  processed : p.processed = Event.visitCount p.events
  edges : traceEdges = true → p.graph.edgeCount = Event.insertedCount p.events
  idle : mode = .exhaustive →
    p.worklist.active = false ∧ p.worklist.pending = [] ∧ Event.enqueuedCount p.events = 0
  unannounced : ∀ st, .built st ∉ p.events

namespace Progress

variable {traceEdges : Bool} {mode : Mode} {seeds : Nat} {p : Progress} {n : Node}

/-- The accounts do not depend on the chains that were combined. -/
theorem Accounts.note (h : p.Accounts traceEdges mode seeds) (chains : List (List Substitution)) :
    (p.note chains).Accounts traceEdges mode seeds :=
  ⟨h.walks, h.taken, h.processed, h.edges, h.idle, h.unannounced⟩

/-- An edge that is stored is reported as new if it is. -/
theorem Accounts.store (h : p.Accounts traceEdges mode seeds) (e : Edge) :
    (p.store traceEdges e).Accounts traceEdges mode seeds := by
  obtain ⟨hwalks, htaken, hprocessed, hedges, hidle, hunannounced⟩ := h
  cases traceEdges with
  | false => exact ⟨hwalks, htaken, hprocessed, nofun, hidle, hunannounced⟩
  | true =>
      constructor
      case walks => exact Event.eachWalk_concat.2 ⟨hwalks, fun n pending he => by cases he⟩
      case taken => simpa [Progress.store, Event.isEnqueued] using htaken
      case processed => simpa [Progress.store, Event.visited?] using hprocessed
      case edges =>
        intro _
        have hcount := hedges rfl
        simp only [Progress.store, if_true, Event.insertedCount_concat, Event.isInsertion,
          CallGraph.addDependency_fst, CallGraph.edgeCount, CallGraph.edges_addDependency] at hcount ⊢
        by_cases he : e ∈ p.graph.edges <;> simp [he, hcount]
      case idle => simpa [Progress.store, Event.isEnqueued] using hidle
      case unannounced => simpa [Progress.store] using hunannounced

/-- A node that is accepted is reported. -/
theorem Accounts.offer (h : p.Accounts traceEdges mode seeds) (n : Node) :
    (p.offer n).Accounts traceEdges mode seeds := by
  obtain ⟨hwalks, htaken, hprocessed, hedges, hidle, hunannounced⟩ := h
  rw [Progress.offer]
  obtain ⟨haccepted, hactive, hpending⟩ | hrefused := p.worklist.offer_cases n
  · rw [haccepted, if_pos rfl]
    constructor
    case walks => exact Event.eachWalk_concat.2 ⟨hwalks, fun m pending he => by cases he⟩
    case taken =>
      simp only [Worklist.pendingCount, hpending, Worklist.resolved_offer, List.length_cons,
        Event.enqueuedCount_concat, Event.isEnqueued, if_true] at htaken ⊢
      omega
    case processed => simpa [Event.visited?] using hprocessed
    case edges => simpa [Event.isInsertion] using hedges
    case idle =>
      intro hmode
      rw [(hidle hmode).1] at hactive
      cases hactive
    case unannounced => simpa using hunannounced
  · rw [hrefused]
    exact ⟨hwalks, htaken, hprocessed, hedges, hidle, hunannounced⟩

/-- A node that comes out of the worklist is still accounted for. -/
theorem Accounts.take (h : p.Accounts traceEdges mode seeds) {w : Worklist}
    (hpop : p.worklist.pop = some (n, w)) :
    { p with worklist := w }.Accounts traceEdges mode seeds := by
  obtain ⟨hpending, hresolved, -⟩ := Worklist.pop_eq_some hpop
  refine ⟨h.walks, ?_, h.processed, h.edges, fun hmode => ?_, h.unannounced⟩
  · have htaken := h.taken
    simp only [Worklist.pendingCount, hpending, hresolved, List.length_cons] at htaken ⊢
    omega
  · rw [(h.idle hmode).2.1] at hpending
    cases hpending

/-- Putting a node into the graph stores no edge. -/
theorem Accounts.enter (h : p.Accounts traceEdges mode seeds) (n : Node) :
    { p with graph := p.graph.addNode n }.Accounts traceEdges mode seeds := by
  refine ⟨h.walks, h.taken, h.processed, fun htrace => ?_, h.idle, h.unannounced⟩
  rw [← h.edges htrace, CallGraph.edgeCount, CallGraph.edges_addNode]
  rfl

/-- A visit is counted and reported, with the nodes that are pending. -/
theorem Accounts.visit (h : p.Accounts traceEdges mode seeds)
    (hexpected : Event.Expected mode seeds p.events p.worklist.pendingCount) (s : Specialization)
    (n : Node) :
    { p with
      processed := p.processed + 1
      events := p.events ++ [s.visit n p.worklist.pendingCount] }.Accounts traceEdges mode seeds := by
  obtain ⟨hwalks, htaken, hprocessed, hedges, hidle, hunannounced⟩ := h
  constructor
  case walks =>
    refine Event.eachWalk_concat.2 ⟨hwalks, fun m pending he => ?_⟩
    rw [← Specialization.eq_of_visit_eq_walking he]
    exact hexpected
  case taken => simpa using htaken
  case processed => simpa using hprocessed
  case edges => simpa using hedges
  case idle => simpa using hidle
  case unannounced => simpa [Specialization.built_ne_visit] using hunannounced

end Progress

/-! ## specializations -/

namespace Builder

variable {b : Builder} {mode : Mode} {seeds : Nat} {p : Progress}

/-- Recording edges keeps the accounts. -/
theorem accounts_records (traceEdges : Bool) (mode : Mode) (seeds : Nat) :
    Records traceEdges
      (fun p q => p.Accounts traceEdges mode seeds → q.Accounts traceEdges mode seeds)
      (·.Accounts traceEdges mode seeds) (fun _ => True) where
  store _ _ h := h.store _
  offer _ h := h.offer _
  note h := h.note _
  keeps hstep h := hstep h

/-- So does processing a specialization, with as many nodes pending as there
should be. -/
theorem Accounts.process (h : p.Accounts b.options.traceEdges mode seeds)
    (hexpected : Event.Expected mode seeds p.events p.worklist.pendingCount)
    (find? : QualifiedName → Option Callable) (n : Node) (resolutions : Substitution)
    (s : Specialization) :
    (Build.after (b.process find? n resolutions s) p).Accounts b.options.traceEdges mode seeds := by
  have hvisit := h.visit hexpected s n
  have hrecords := accounts_records b.options.traceEdges mode seeds
  rw [Build.after, process_eq (b.site find? n resolutions) rfl s p]
  exact hrecords.keeps_reflTransGen (hrecords.forM_emit hvisit fun _ _ => trivial) hvisit

/-! ## exhaustive constructions -/

/-- In an exhaustive construction nothing is ever pending. -/
theorem Accounts.processDeclared (h : p.Accounts b.options.traceEdges .exhaustive seeds)
    (program : Program) (c : Callable) (s : Specialization) :
    (Build.after (b.processDeclared program c s) p).Accounts b.options.traceEdges .exhaustive
      seeds := by
  have hexpected : Event.Expected .exhaustive seeds p.events p.worklist.pendingCount :=
    congrArg List.length (h.idle rfl).2.1
  rw [Build.after, Builder.processDeclared, bind_apply, ofExcept_apply]
  cases c.instantiate s.typeArguments with
  | error e => exact h
  | ok resolutions => exact Accounts.process h hexpected program.find? (s.node c) resolutions s

theorem Accounts.forM_processDeclared (h : p.Accounts b.options.traceEdges .exhaustive seeds)
    (program : Program) (xs : List (Callable × Specialization)) :
    (Build.after (forM xs fun x => b.processDeclared program x.1 x.2) p).Accounts
      b.options.traceEdges .exhaustive seeds := by
  induction xs generalizing p with
  | nil => exact h
  | cons x xs ih =>
      have hfirst := Accounts.processDeclared h program x.1 x.2
      rw [Build.after] at hfirst ⊢
      rw [List.forM_cons, bind_apply]
      cases hx : b.processDeclared program x.1 x.2 p with
      | error e q =>
          rw [hx] at hfirst
          exact hfirst
      | ok u q =>
          rw [hx] at hfirst
          exact ih hfirst

/-! ## constructions on demand -/

/-- A node is processed when all that came out of the worklist before it are
visited. -/
theorem Accounts.processNode (h : p.Accounts b.options.traceEdges .demandDriven seeds)
    (hvisits : Event.visitCount p.events + 1 = p.worklist.resolved.length)
    (find? : QualifiedName → Option Callable) (n : Node) :
    (Build.after (b.processNode find? n) p).Accounts b.options.traceEdges .demandDriven seeds := by
  have henter := h.enter n
  have hexpected : Event.Expected .demandDriven seeds p.events p.worklist.pendingCount := by
    rw [Event.Expected, hvisits]
    exact h.taken
  rw [Build.after]
  obtain ⟨e, -, herror⟩ | ⟨s, resolutions, -, hnode⟩ := b.processNode_cases find? n p
  · rw [herror]
    exact h
  · rw [hnode]
    obtain ⟨hwithin, -⟩ | ⟨limit, hbeyond⟩ :=
      Build.checkLimit_cases b.options { p with graph := p.graph.addNode n }
    · rw [hwithin]
      exact Accounts.process henter hexpected find? n resolutions s
    · rw [hbeyond]
      exact henter

/-- The accounts are kept by any number of looks.  If none is pending in the
end, all nodes that came out of the worklist were visited. -/
theorem Accounts.drain (h : p.Accounts b.options.traceEdges .demandDriven seeds)
    (hvisits : Event.visitCount p.events = p.worklist.resolved.length)
    (find? : QualifiedName → Option Callable) (looks : Nat) :
    (Build.after (b.drain find? looks) p).Accounts b.options.traceEdges .demandDriven seeds ∧
    ∀ q, b.drain find? looks p = .ok true q →
      q.worklist.pending = [] ∧ Event.visitCount q.events = q.worklist.resolved.length := by
  induction looks generalizing p with
  | zero => exact ⟨h, fun q hq => by cases hq⟩
  | succ looks ih =>
      rw [Build.after, drain_step]
      cases hpop : p.worklist.pop with
      | none =>
          refine ⟨h, fun q hq => ?_⟩
          cases hq
          exact ⟨Worklist.pop_eq_none_iff.1 hpop, hvisits⟩
      | some next =>
          obtain ⟨n, w⟩ := next
          have hresolved : w.resolved = n :: p.worklist.resolved := (Worklist.pop_eq_some hpop).2.1
          have hlength : Event.visitCount p.events + 1 = w.resolved.length := by
            rw [hvisits, hresolved, List.length_cons]
          have hnode := Accounts.processNode (h.take hpop) hlength find? n
          rw [Build.after] at hnode
          dsimp only
          cases hn : b.processNode find? n { p with worklist := w } with
          | error e q =>
              rw [hn] at hnode
              exact ⟨hnode, fun q hq => by cases hq⟩
          | ok u q =>
              rw [hn] at hnode
              obtain ⟨hvisited, hsame⟩ := visits_processNode hn
              refine ih hnode ?_
              rw [Event.visitCount_eq_length_visits, hvisited, List.length_append,
                ← Event.visitCount_eq_length_visits, hsame]
              exact hlength

/-! ## runs -/

/-- The worklist begins with the distinct entry points. -/
theorem pendingCount_seeds (entryPoints : List QualifiedName) :
    (Builder.seeds entryPoints).pendingCount = entryPoints.dedup.length := by
  obtain ⟨-, hresolved, haccepted⟩ :=
    mem_accepted_foldl_offer (w := .demandDriven) rfl entryPoints
  have hpending : (Builder.seeds entryPoints).accepted = (Builder.seeds entryPoints).pending := by
    rw [Worklist.accepted, Builder.seeds, hresolved]
    exact List.append_nil _
  have hperm : (Builder.seeds entryPoints).accepted.Perm (entryPoints.dedup.map .entry) := by
    refine (List.perm_ext_iff_of_nodup (Builder.seeds entryPoints).nodup
      (entryPoints.nodup_dedup.map fun a b => Node.entry_inj.1)).2 fun n => ?_
    refine (haccepted n).trans ?_
    simp [Worklist.accepted, Worklist.demandDriven, eq_comm]
  rw [Worklist.pendingCount, ← hpending, hperm.length_eq, List.length_map]

/-- The mode of a construction. -/
def modeOf (entryPoints : List QualifiedName) : Mode :=
  if entryPoints = [] then .exhaustive else .demandDriven

/-- At first no entry point came out of the worklist. -/
theorem resolved_seeds (entryPoints : List QualifiedName) :
    (Builder.seeds entryPoints).resolved = [] :=
  (mem_accepted_foldl_offer (w := .demandDriven) rfl entryPoints).2.1

/-- In the beginning nothing is reported. -/
theorem accounts_start (traceEdges : Bool) (entryPoints : List QualifiedName) :
    (start entryPoints).Accounts traceEdges (modeOf entryPoints) entryPoints.dedup.length := by
  rw [start, modeOf]
  refine ⟨?_, ?_, rfl, fun _ => rfl, fun hmode => ?_, fun st => List.not_mem_nil⟩
  · intro before n pending hbefore
    exact absurd (List.prefix_nil.1 hbefore) (by simp)
  · by_cases h : entryPoints = []
    · subst h
      rfl
    · rw [if_neg h, Progress.initial, pendingCount_seeds, resolved_seeds]
      rfl
  · by_cases h : entryPoints = []
    · rw [if_pos h]
      exact ⟨rfl, rfl, rfl⟩
    · rw [if_neg h] at hmode
      cases hmode

/-- The accounts of a run, however far it is followed and whether or not it
fails.  A run on demand that comes to its end has visited all that came out of
the worklist. -/
theorem accounts_run (b : Builder) (program : Program) (entryPoints : List QualifiedName)
    (looks : Nat) :
    (b.state program entryPoints looks).Accounts b.options.traceEdges (modeOf entryPoints)
      entryPoints.dedup.length ∧
    ∀ q, b.run program entryPoints looks (start entryPoints) = .ok true q → entryPoints ≠ [] →
      q.worklist.pending = [] ∧ Event.visitCount q.events = q.worklist.resolved.length := by
  have hstart := accounts_start b.options.traceEdges entryPoints
  rw [state, run]
  rw [modeOf] at hstart ⊢
  by_cases h : entryPoints = []
  · rw [if_pos h] at hstart ⊢
    rw [if_pos h]
    have hsweep := Accounts.forM_processDeclared hstart program program.specializations
    refine ⟨?_, fun _ _ hentries => absurd h hentries⟩
    rw [← exhaust_eq_forM, Build.after] at hsweep
    rw [Build.after, bind_apply]
    cases hexhaust : b.exhaust program (start entryPoints) with
    | error e q =>
        rw [hexhaust] at hsweep
        exact hsweep
    | ok u q =>
        rw [hexhaust] at hsweep
        exact hsweep
  · rw [if_neg h] at hstart ⊢
    rw [if_neg h]
    have hvisits : Event.visitCount (start entryPoints).events =
        (start entryPoints).worklist.resolved.length := by
      rw [start, if_neg h, Progress.initial, resolved_seeds]
      rfl
    obtain ⟨haccounts, hended⟩ := Accounts.drain hstart hvisits program.find? looks
    exact ⟨haccounts, fun q hq _ => hended q hq⟩

/-! ## the log of a construction -/

/-- The event that opens the log of a construction. -/
def opening (program : Program) (entryPoints : List QualifiedName) : Event :=
  if entryPoints = [] then .exhaustiveStart program.nameCount
  else .demandDrivenStart program.nameCount entryPoints.length

/-- The event that closes the log of a construction, if that ends with a
graph. -/
def Outcome.closing {ε : Type} : Outcome ε → List Event
  | .built _ st => [.built st]
  | .failed _ => []
  | .unfinished => []

/-- Between the two stand the events of the run. -/
theorem events_build (b : Builder) (program : Program) (entryPoints : List QualifiedName)
    (looks : Nat) :
    (b.build program entryPoints looks).events =
      opening program entryPoints :: (b.state program entryPoints looks).events ++
        (b.build program entryPoints looks).outcome.closing := by
  rw [build_eq_report, state, Build.after, opening]
  cases b.run program entryPoints looks (start entryPoints) with
  | error e q => exact (List.append_nil _).symm
  | ok done q =>
      cases done with
      | false => exact (List.append_nil _).symm
      | true => rfl

/-- The opening event is no visit, and it reports no node and no edge. -/
theorem opening_cases (program : Program) (entryPoints : List QualifiedName) :
    (opening program entryPoints).visited? = none ∧
      (opening program entryPoints).isEnqueued = false ∧
      (opening program entryPoints).isInsertion = false ∧
      ∀ st, .built st ≠ opening program entryPoints := by
  rw [opening]
  split <;> exact ⟨rfl, rfl, rfl, nofun⟩

/-- Events of other kinds than these two are those of the run. -/
theorem countP_events_build (b : Builder) (program : Program) (entryPoints : List QualifiedName)
    (looks : Nat) {f : Event → Bool} (hopening : f (opening program entryPoints) = false)
    (hbuilt : ∀ st, f (.built st) = false) :
    (b.build program entryPoints looks).events.countP f =
      (b.state program entryPoints looks).events.countP f := by
  rw [events_build, List.countP_append, List.countP_cons, hopening]
  cases (b.build program entryPoints looks).outcome <;> simp [Outcome.closing, hbuilt]

/-- The walks in the log of a construction are those of its run. -/
theorem eachWalk_build (b : Builder) (program : Program) (entryPoints : List QualifiedName)
    (looks : Nat) :
    Event.EachWalk (Event.Expected (modeOf entryPoints) entryPoints.dedup.length)
      (b.build program entryPoints looks).events := by
  obtain ⟨hvisited, henqueued, -, -⟩ := opening_cases program entryPoints
  have hrun := (b.accounts_run program entryPoints looks).1.walks
  have hopened := hrun.cons hvisited fun before pending hbefore =>
    Event.Expected.cons hvisited henqueued hbefore
  rw [events_build]
  cases (b.build program entryPoints looks).outcome with
  | built g st =>
      exact Event.eachWalk_concat.2 ⟨hopened, fun n pending he => by cases he⟩
  | failed e =>
      rw [Outcome.closing, List.append_nil]
      exact hopened
  | unfinished =>
      rw [Outcome.closing, List.append_nil]
      exact hopened

/-- The log accounts for the construction.  In every log of a construction on
demand, whether that ends with a graph, with an error or not at all, each walk
is reported with as many pending nodes as there are distinct entry points and
accepted nodes up to then, less the nodes visited, the present one included.
In an exhaustive construction nothing is pending and nothing is accepted.  When
a graph is built, as many visits are reported as specializations were processed,
which on demand are the distinct entry points and the accepted nodes; and if
single edges are reported, as many of them are new as the graph has.  When a
construction fails, no graph is announced. -/
theorem build_accounts (b : Builder) (program : Program) (entryPoints : List QualifiedName)
    (looks : Nat) :
    let r := b.build program entryPoints looks
    (∀ before n pending, before ++ [.walking n pending] <+: r.events →
      (entryPoints = [] → pending = 0) ∧
      (entryPoints ≠ [] → pending + Event.visitCount (before ++ [.walking n pending]) =
        entryPoints.dedup.length + Event.enqueuedCount before)) ∧
    (entryPoints = [] → Event.enqueuedCount r.events = 0) ∧
    (∀ g st, r.outcome = .built g st →
      Event.visitCount r.events = st.processed ∧
      (entryPoints ≠ [] →
        st.processed = entryPoints.dedup.length + Event.enqueuedCount r.events) ∧
      (b.options.traceEdges = true → Event.insertedCount r.events = st.edges) ∧
      st.edges = g.edgeCount) ∧
    ∀ e, r.outcome = .failed e → ∀ st, .built st ∉ r.events := by
  intro r
  obtain ⟨hvisited, henqueued, hinsertion, hbuilt⟩ := opening_cases program entryPoints
  obtain ⟨haccounts, hended⟩ := b.accounts_run program entryPoints looks
  have hvisitCount : Event.visitCount r.events =
      Event.visitCount (b.state program entryPoints looks).events :=
    b.countP_events_build program entryPoints looks (by rw [hvisited]; rfl) fun _ => rfl
  have henqueuedCount : Event.enqueuedCount r.events =
      Event.enqueuedCount (b.state program entryPoints looks).events :=
    b.countP_events_build program entryPoints looks henqueued fun _ => rfl
  have hinsertedCount : Event.insertedCount r.events =
      Event.insertedCount (b.state program entryPoints looks).events :=
    b.countP_events_build program entryPoints looks hinsertion fun _ => rfl
  refine ⟨fun before n pending hbefore => ?_, fun hentries => ?_, fun g st hg => ?_,
    fun e he st => ?_⟩
  · have hexpected := b.eachWalk_build program entryPoints looks before n pending hbefore
    rw [modeOf] at hexpected
    constructor
    · intro hentries
      rw [if_pos hentries] at hexpected
      exact hexpected
    · intro hentries
      rw [if_neg hentries] at hexpected
      rw [Event.visitCount_concat]
      exact hexpected
  · rw [henqueuedCount]
    exact (haccounts.idle (if_pos hentries)).2.2
  · obtain ⟨q, hrun, rfl, rfl⟩ := run_of_built hg
    have hstate : b.state program entryPoints looks = q := by rw [state, Build.after, hrun]
    rw [hvisitCount, henqueuedCount, hinsertedCount, hstate]
    rw [hstate] at haccounts
    refine ⟨haccounts.processed.symm, fun hentries => ?_, fun htrace => ?_, rfl⟩
    · obtain ⟨hpending, hvisits⟩ := hended q hrun hentries
      have htaken := haccounts.taken
      rw [Worklist.pendingCount, hpending, List.length_nil, Nat.zero_add, ← hvisits] at htaken
      exact haccounts.processed.trans htaken
    · exact (haccounts.edges htrace).symm
  · rw [events_build, he, Outcome.closing, List.append_nil, List.mem_cons, not_or]
    exact ⟨hbuilt st, haccounts.unannounced st⟩

/-- An entry point that is given twice and two operations that call each other
come to three edges, and the log reports as many that are new. -/
theorem build_accounts_mutual_recursion :
    let b : Builder := ⟨Combiner.compose, ⟨none, true⟩⟩
    let program := MutualRecursion.program id
    let main := MutualRecursion.operationName "Main"
    ∃ g st, (b.build program [main, main] 4).outcome = .built g st ∧ g.edgeCount = 3 ∧
      Event.insertedCount (b.build program [main, main] 4).events = 3 := by
  intro b program main
  have hcount : (b.build program [main, main] 4).outcome.graph?.map (·.edgeCount) = some 3 := by
    decide +kernel
  obtain ⟨g, st, hbuilt, hedges⟩ := Outcome.exists_built hcount
  obtain ⟨-, -, hinserted, hst⟩ := (build_accounts b program [main, main] 4).2.2.1 g st hbuilt
  exact ⟨g, st, hbuilt, hedges, (hinserted rfl).trans (hst.trans hedges)⟩

end Builder

end CallGraphs
