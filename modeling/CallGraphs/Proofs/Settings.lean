import CallGraphs.Proofs.Runs

/-!
# CallGraphs.Proofs.Settings

Two builders that differ in their settings only do the same, one step after
the other.  A relation between their steps that holds of the elementary ones,
and is kept when steps are put together, holds of their constructions.

* `Relates.body` — walks;
* `Relates.processNode`, `Relates.processDeclared` — nodes and specializations;
* `Relates.run` — constructions.
-/

namespace CallGraphs

namespace Build

/-- A relation between steps under two settings.  It holds of the elementary
steps, and it is kept when steps are put one after the other. -/
structure Relates (o o' : Options) (R : (α : Type) → Build α → Build α → Prop) : Prop where
  pure : ∀ {α : Type} (a : α), R α (pure a) (pure a)
  throw : ∀ {α : Type} (e : BuildError), R α (throw e) (throw e)
  bind : ∀ {α β : Type} {x y : Build α} {f g : α → Build β}, R α x y → (∀ a, R β (f a) (g a)) →
    R β (x >>= f) (y >>= g)
  count : R Unit (modify fun p => { p with processed := p.processed + 1 })
    (modify fun p => { p with processed := p.processed + 1 })
  bodyless : ∀ n, R Unit (report (.bodyless n)) (report (.bodyless n))
  walking : ∀ n, R Unit (do report (.walking n (← get).worklist.pendingCount))
    (do report (.walking n (← get).worklist.pendingCount))
  noteChain : ∀ chain, R Unit (noteChain chain) (noteChain chain)
  next : R (Option Node) Builder.next Builder.next
  enter : ∀ n,
    R Unit (do modify fun p => { p with graph := p.graph.addNode n }; checkLimit o)
      (do modify fun p => { p with graph := p.graph.addNode n }; checkLimit o')
  record : ∀ e, R Unit (record o e) (record o' e)

namespace Relates

variable {o o' : Options} {R : (α : Type) → Build α → Build α → Prop} {combiner : Combiner}
  {find? : QualifiedName → Option Callable} {n : Node} {resolutions : Substitution}

/-! ## steps put together -/

/-- Two steps that are related together may stand before others. -/
theorem bind_pair (h : Relates o o' R) {α β γ : Type} {x y : Build α} {f f' : α → Build β}
    {g g' : β → Build γ} (hfirst : R β (x >>= f) (y >>= f')) (hrest : ∀ b, R γ (g b) (g' b)) :
    R γ (x >>= fun a => f a >>= g) (y >>= fun a => f' a >>= g') := by
  rw [← LawfulMonad.bind_assoc, ← LawfulMonad.bind_assoc]
  exact h.bind hfirst hrest

theorem ofExcept (h : Relates o o' R) {α : Type} (x : Except BuildError α) :
    R α (MonadExcept.ofExcept x) (MonadExcept.ofExcept x) := by
  cases x with
  | error e => exact h.throw e
  | ok a => exact h.pure a

theorem forM (h : Relates o o' R) {α : Type} {f g : α → Build Unit}
    (hstep : ∀ a, R Unit (f a) (g a)) (xs : List α) : R Unit (forM xs f) (forM xs g) := by
  induction xs with
  | nil => exact h.pure ()
  | cons x xs ih =>
      rw [List.forM_cons, List.forM_cons]
      exact h.bind (hstep x) fun _ => ih

/-! ## walks -/

/-- Processing a reference. -/
theorem emit (h : Relates o o' R) (site : Site) (name : QualifiedName) (kinds : List Variant)
    (chain : List Substitution) :
    R Unit (Site.emit { site with options := o } name kinds chain)
      (Site.emit { site with options := o' } name kinds chain) :=
  h.bind (h.noteChain chain) fun _ =>
    h.bind (h.ofExcept (site.combiner chain)) fun combined =>
      h.bind (h.ofExcept (site.target name combined)) fun _ => h.forM h.record _

/-- Walking a body. -/
theorem body (h : Relates o o' R) (site : Site) (scope : Scope) :
    R Unit (Walk.body { site with options := o } scope)
      (Walk.body { site with options := o' } scope) := by
  rw [Walk.body_eq_forM, Walk.body_eq_forM]
  exact h.forM (fun r : Reference => h.emit site r.name r.variants _) _

/-! ## constructions -/

/-- Processing a specialization. -/
theorem process (h : Relates o o' R) (s : Specialization) :
    R Unit (Builder.process ⟨combiner, o⟩ find? n resolutions s)
      (Builder.process ⟨combiner, o'⟩ find? n resolutions s) := by
  rw [Builder.process, Builder.process]
  refine h.bind h.count fun _ => ?_
  cases s.body? with
  | none => exact h.bodyless n
  | some body =>
      refine h.bind_pair (h.walking n) fun _ => ?_
      exact h.body ⟨find?, combiner, n, resolutions, o⟩ body

/-- Processing a specialization where it is declared. -/
theorem processDeclared (h : Relates o o' R) (program : Program) (c : Callable)
    (s : Specialization) :
    R Unit (Builder.processDeclared ⟨combiner, o⟩ program c s)
      (Builder.processDeclared ⟨combiner, o'⟩ program c s) :=
  h.bind (h.ofExcept (c.instantiate s.typeArguments)) fun _ => h.process s

/-- Processing a node. -/
theorem processNode (h : Relates o o' R) (n : Node) :
    R Unit (Builder.processNode ⟨combiner, o⟩ find? n)
      (Builder.processNode ⟨combiner, o'⟩ find? n) := by
  rw [Builder.processNode, Builder.processNode]
  cases find? n.callable with
  | none => exact h.throw _
  | some c =>
      exact h.bind (h.ofExcept (c.template n.kind)) fun s =>
        h.bind (h.ofExcept (c.instantiate n.typeArguments)) fun _ =>
          h.bind_pair (h.enter n) fun _ => h.process s

/-- Looking for nodes and processing them. -/
theorem drain (h : Relates o o' R) (looks : Nat) :
    R Bool (Builder.drain ⟨combiner, o⟩ find? looks)
      (Builder.drain ⟨combiner, o'⟩ find? looks) := by
  induction looks with
  | zero => exact h.pure false
  | succ looks ih =>
      rw [Builder.drain, Builder.drain]
      refine h.bind h.next fun next => ?_
      cases next with
      | none => exact h.pure true
      | some n => exact h.bind (h.processNode n) fun _ => ih

/-- Construction in either mode. -/
theorem run (h : Relates o o' R) (program : Program) (entryPoints : List QualifiedName)
    (looks : Nat) :
    R Bool (Builder.run ⟨combiner, o⟩ program entryPoints looks)
      (Builder.run ⟨combiner, o'⟩ program entryPoints looks) := by
  rw [Builder.run, Builder.run]
  by_cases hentries : entryPoints = []
  · rw [if_pos hentries, if_pos hentries]
    refine h.bind (h.forM (fun c => h.forM (fun s => ?_) _) _) fun _ => h.pure true
    exact h.processDeclared program c s
  · rw [if_neg hentries, if_neg hentries]
    exact h.drain looks

end Relates

end Build

end CallGraphs
