import CallGraphs.Build.Walk

/-!
# CallGraphs.Build.Builder

Building the call graph of a program.

* *Exhaustively*: every specialization of every callable is walked once, in
  program order.
* *On demand*: the worklist starts with the bodies of the entry points, and
  nodes are taken out and walked until none is pending.

A program whose generic callables instantiate each other at ever larger
types has no finite graph to be built on demand.  So that construction is
given a number of times it may look for a next node, and a run that uses
them up is told apart from one that ends.

* `drain_step` — what one look does.
-/

namespace CallGraphs

/-! ## selecting what to walk -/

namespace Callable

/-- The only specialization of a variant without type arguments. -/
def template (c : Callable) (kind : Variant) : Except BuildError Specialization :=
  match c.templates kind with
  | [] => .error (.specializationNotFound c.name.text kind.text)
  | [s] => .ok s
  | several => .error (.ambiguousSpecialization c.name.text kind.text several.length)

/-- The substitution that type arguments give to the declared parameters. -/
def instantiate (c : Callable) (typeArguments : Option (List Ty)) :
    Except BuildError Substitution :=
  match typeArguments with
  | none => .ok ∅
  | some types =>
    if types.length = c.typeParameters.length then
      .ok (.ofList (c.parameters.zip types))
    else
      .error (.typeArgumentArity c.name.text c.typeParameters.length types.length)

end Callable

/-! ## the two ways to build -/

/-- A builder: how chains of substitutions are combined, and the settings. -/
structure Builder where
  combiner : Combiner
  options : Options

namespace Builder

/-- The builder that composes substitutions, without limit and without
reports of single edges. -/
def standard : Builder := ⟨Combiner.compose, ⟨none, false⟩⟩

/-- The site of a walk by this builder. -/
def site (b : Builder) (find? : QualifiedName → Option Callable) (caller : Node)
    (resolutions : Substitution) : Site where
  find? := find?
  combiner := b.combiner
  caller := caller
  resolutions := resolutions
  options := b.options

/-- Process a specialization: walk its body if it has one. -/
def process (b : Builder) (find? : QualifiedName → Option Callable) (caller : Node)
    (resolutions : Substitution) (specialization : Specialization) : Build Unit := do
  modify fun p => { p with processed := p.processed + 1 }
  match specialization.body? with
  | none => Build.report (.bodyless caller)
  | some body =>
    Build.report (.walking caller (← get).worklist.pendingCount)
    Walk.body (b.site find? caller resolutions) body

/-- Process a specialization where it is declared. -/
def processDeclared (b : Builder) (p : Program) (c : Callable) (s : Specialization) :
    Build Unit := do
  let resolutions ← MonadExcept.ofExcept (c.instantiate s.typeArguments)
  b.process p.find? ⟨c.name, s.kind, s.typeArguments⟩ resolutions s

/-- Process every specialization of a program. -/
def exhaust (b : Builder) (p : Program) : Build Unit :=
  p.callables.forM fun c => c.specializations.forM fun s => b.processDeclared p c s

/-- Process a node that came out of the worklist. -/
def processNode (b : Builder) (find? : QualifiedName → Option Callable) (n : Node) :
    Build Unit := do
  match find? n.callable with
  | none => throw (.undeclaredCallable n.callable.text)
  | some c =>
    let specialization ← MonadExcept.ofExcept (c.template n.kind)
    let resolutions ← MonadExcept.ofExcept (c.instantiate n.typeArguments)
    modify fun p => { p with graph := p.graph.addNode n }
    Build.checkLimit b.options
    b.process find? n resolutions specialization

/-- Take the next node out of the worklist. -/
def next : Build (Option Node) :=
  modifyGet fun p =>
    match p.worklist.pop with
    | none => (none, p)
    | some (n, worklist) => (some n, { p with worklist })

/-- Take nodes out of the worklist and process them, looking for a next one
at most `looks` times.  The answer tells whether none was left. -/
def drain (b : Builder) (find? : QualifiedName → Option Callable) : (looks : Nat) → Build Bool
  | 0 => pure false
  | looks + 1 => do
    match ← next with
    | none => pure true
    | some n =>
      b.processNode find? n
      b.drain find? looks

/-- The worklist that holds the bodies of the entry points. -/
def seeds (entryPoints : List QualifiedName) : Worklist :=
  entryPoints.foldl (fun w name => (w.offer (.entry name)).2) .demandDriven

/-! ## reports -/

/-- How a construction ended: with a graph, with an error, or not within
the looks it was given. -/
inductive Outcome (ε : Type) where
  | built (graph : CallGraph) (statistics : Statistics)
  | failed (error : ε)
  | unfinished

/-- What is known after a construction: its outcome, the events, and the
chains of substitutions that were combined. -/
structure Report (ε : Type) where
  outcome : Outcome ε
  events : List Event
  chains : List (List Substitution)

/-- The figures of a construction that has ended. -/
def statistics (mode : Mode) (p : Progress) : Statistics :=
  ⟨mode, p.processed, p.graph.nodeCount, p.graph.edgeCount⟩

/-- The report on a run.  A graph is announced by a last event. -/
def report (mode : Mode) (start : Event) : EStateM.Result BuildError Progress Bool → Report BuildError
  | .ok true p =>
    ⟨.built p.graph (statistics mode p), start :: p.events ++ [.built (statistics mode p)],
      p.chains⟩
  | .ok false p => ⟨.unfinished, start :: p.events, p.chains⟩
  | .error e p => ⟨.failed e, start :: p.events, p.chains⟩

/-- Build the call graph of a program: exhaustively if there are no entry
points, else on demand with at most `looks` looks for a next node. -/
def build (b : Builder) (p : Program) (entryPoints : List QualifiedName) (looks : Nat) :
    Report BuildError :=
  if entryPoints = [] then
    report .exhaustive (.exhaustiveStart p.nameCount)
      ((do b.exhaust p; pure true : Build Bool).run (.initial .inactive))
  else
    report .demandDriven (.demandDrivenStart p.nameCount entryPoints.length)
      ((b.drain p.find? looks).run (.initial (seeds entryPoints)))

/-! ## looks -/

theorem next_apply (p : Progress) :
    next p =
      match p.worklist.pop with
      | none => .ok none p
      | some (n, worklist) => .ok (some n) { p with worklist } := by
  unfold next
  show (match (match p.worklist.pop with
    | none => (none, p)
    | some (n, worklist) => (some n, { p with worklist })) with
    | (a, s) => EStateM.Result.ok a s) = _
  cases p.worklist.pop <;> rfl

/-- A look takes the next node out and processes it, or ends the run. -/
theorem drain_step (b : Builder) (find? : QualifiedName → Option Callable) (looks : Nat)
    (p : Progress) :
    b.drain find? (looks + 1) p =
      match p.worklist.pop with
      | none => .ok true p
      | some (n, worklist) =>
        match b.processNode find? n { p with worklist } with
        | .ok _ q => b.drain find? looks q
        | .error e q => .error e q := by
  rw [drain]
  show EStateM.bind next _ p = _
  rw [EStateM.bind, next_apply]
  cases p.worklist.pop with
  | none => rfl
  | some r =>
      obtain ⟨n, worklist⟩ := r
      show EStateM.bind (b.processNode find? n) _ { p with worklist } = _
      rw [EStateM.bind]
      dsimp only
      cases b.processNode find? n { p with worklist } <;> rfl

end Builder

end CallGraphs
