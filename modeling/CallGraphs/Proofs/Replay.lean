import CallGraphs.Build.Walk
import CallGraphs.Proofs.Reading
import CallGraphs.Proofs.Recording

/-!
# CallGraphs.Proofs.Replay

A walk of a body emits what the references read off the tree emit, one after
the other.  Within an expression the walk carries a context and a stack.  A
step comes back to the context that it began with, and what waited on the
stack goes to the first reference that the step comes upon.

* `reference_apply` — a reference empties the stack;
* `visitor_reads` — a walk replays the references of an expression;
* `body_eq_forM` — a walk of a body carries nothing from one root expression
  to the next.
-/

namespace CallGraphs

/-! ## what a reference emits -/

namespace Site

/-- What a reference to `name` is resolved to when the substitutions there
combine to `combined`: the type arguments of its callees and the substitution
of its edges. -/
def target (site : Site) (name : QualifiedName) (combined : Substitution) :
    Except BuildError (Option (List Ty) × Substitution) :=
  match site.find? name with
  | none => .error (.undeclaredCallable name.text)
  | some callable =>
    match Walk.bindings site.caller name callable combined with
    | .error e => .error e
    | .ok bound =>
      .ok (if callable.isGeneric then some (bound.map (·.2)) else none, Substitution.ofList bound)

/-- The edge of a reference to a variant of a callable. -/
def edge (site : Site) (name : QualifiedName) (target : Option (List Ty) × Substitution)
    (kind : Variant) : Edge :=
  ⟨site.caller, ⟨name, kind, target.1⟩, target.2⟩

/-- Process a reference at which a chain is combined and which reaches the
given variants. -/
def emit (site : Site) (name : QualifiedName) (kinds : List Variant)
    (chain : List Substitution) : Build Unit := do
  Build.noteChain chain
  let combined ← MonadExcept.ofExcept (site.combiner chain)
  let target ← MonadExcept.ofExcept (site.target name combined)
  (kinds.map (site.edge name target)).forM (Build.record site.options)

end Site

namespace Walk

/-- The state of a walk after a step of the construction, with the context
and the stack that it goes on with.  A reference that fails has used the
stack up. -/
def resume (context : CallContext) (stack : Substitution.Stack) :
    EStateM.Result BuildError Progress Unit → EStateM.Result BuildError Walk.State Unit
  | .ok _ progress => .ok () ⟨progress, context, stack⟩
  | .error e progress => .error e ⟨progress, context, ∅⟩

theorem forM_lift (options : Options) (edge : Variant → Edge) (kinds : List Variant)
    (p : Progress) (c : CallContext) :
    forM kinds (fun kind => lift (Build.record options (edge kind))) ⟨p, c, ∅⟩ =
      resume c ∅ (forM (kinds.map edge) (Build.record options) p) := by
  induction kinds generalizing p with
  | nil => rfl
  | cons kind kinds ih =>
      rw [List.map_cons, List.forM_cons, List.forM_cons, bind_apply, bind_apply]
      cases h : Build.record options (edge kind) p with
      | ok u q => simpa only [lift, h] using ih q
      | error e q => simp only [lift, h, resume]

/-- A reference notes the chain, combines it and uses the stack up. -/
theorem consume_apply (site : Site) (s : Walk.State) :
    consume site s =
      (MonadExcept.ofExcept (site.combiner (s.stack.chain site.resolutions)) : Walk Substitution)
        ⟨{ s.progress with chains := s.progress.chains ++ [s.stack.chain site.resolutions] },
          s.context, ∅⟩ := rfl

/-- A reference emits what waits for it, and leaves nothing waiting. -/
theorem reference_apply (site : Site) (name : QualifiedName) (s : Walk.State) :
    reference site name s =
      resume s.context ∅
        (site.emit name (variants s.context) (s.stack.chain site.resolutions) s.progress) := by
  obtain ⟨p, c, stack⟩ := s
  rw [reference, bind_apply, consume_apply, ofExcept_apply, Site.emit, bind_apply,
    Build.noteChain_apply]
  dsimp only
  rw [bind_apply, ofExcept_apply]
  cases hcombined : site.combiner (stack.chain site.resolutions) with
  | error e => rfl
  | ok combined =>
      dsimp only
      rw [bind_apply, ofExcept_apply, Site.target]
      cases hcallable : site.find? name with
      | none => rfl
      | some callable =>
          dsimp only
          rw [bind_apply, ofExcept_apply]
          cases hbound : bindings site.caller name callable combined with
          | error e => rfl
          | ok bound => exact forM_lift _ _ _ _ _

/-! ## the references of an expression -/

/-- What the references of an expression emit one after the other, when it is
entered in the context `c`: the substitutions that waited before it go to its
first reference. -/
def replay (site : Site) (c : CallContext) (waiting : List Substitution) :
    List Reference → Build Unit
  | [] => pure ()
  | r :: rs => do
    site.emit r.name (variants (r.contextIn c)) (r.maps ++ waiting ++ [site.resolutions])
    forM rs fun r => site.emit r.name (variants (r.contextIn c)) (r.chain site.resolutions)

/-- Without substitutions that waited before, every reference has its own
ones only. -/
theorem replay_nil_eq_forM (site : Site) (c : CallContext) (rs : List Reference) :
    replay site c [] rs =
      forM rs fun r => site.emit r.name (variants (r.contextIn c)) (r.chain site.resolutions) := by
  cases rs with
  | nil => rfl
  | cons r rs => simp [replay, Reference.chain]

/-- The stack after the references of an expression: as before if there is
none, else empty. -/
def left (stack : Substitution.Stack) : List Reference → Substitution.Stack
  | [] => stack
  | _ :: _ => ∅

theorem left_append (stack : Substitution.Stack) (rs rs' : List Reference) :
    left stack (rs ++ rs') = left (left stack rs) rs' := by
  cases rs <;> cases rs' <;> rfl

/-- What waited before two expressions goes to the first reference of both. -/
theorem replay_append (site : Site) (c : CallContext) (stack : Substitution.Stack)
    (rs rs' : List Reference) :
    replay site c stack.maps (rs ++ rs') =
      (do replay site c stack.maps rs; replay site c (left stack rs).maps rs') := by
  cases rs with
  | nil => rfl
  | cons r rs =>
      have hempty : (left stack (r :: rs)).maps = [] := rfl
      rw [hempty, replay_nil_eq_forM]
      simp [replay]

/-- Going down into an operand changes the context of its references. -/
theorem replay_under (site : Site) (c : CallContext) (waiting : List Substitution) (role : Role)
    (rs : List Reference) :
    replay site c waiting (rs.map (·.under role)) = replay site (c.enter role) waiting rs := by
  cases rs with
  | nil => rfl
  | cons r rs => simp [replay, Reference.contextIn_under, Reference.chain]

/-- The references of an expression after the first do not see its
substitution. -/
theorem forM_within_succ (map : Substitution) (rs : List Reference) (f : Reference → Build Unit)
    (h : ∀ r i, f (r.within map (i + 1)) = f r) :
    forM (rs.mapIdx fun i r => r.within map (i + 1)) f = forM rs f :=
  forM_eq_of_map_eq (List.ext_getElem (by simp) (by simp [h]))

/-- Going down into an expression puts its substitution on the stack, from
where its first reference takes it. -/
theorem replay_within (site : Site) (c : CallContext) (stack : Substitution.Stack)
    (map : Substitution) (rs : List Reference) :
    replay site c stack.maps (rs.mapIdx fun i r => r.within map i) =
      replay site c (stack.push map).maps rs := by
  cases rs with
  | nil => rfl
  | cons r rs =>
      have hfirst : (r.within map 0).maps ++ stack.maps = r.maps ++ (stack.push map).maps := by
        rw [Reference.maps_within_zero, Substitution.Stack.push]
        cases map.isEmpty <;> simp
      rw [List.mapIdx_cons, replay, replay, forM_within_succ map rs _ fun r i => by simp, hfirst]
      rfl

/-- A step of a walk replays the given references: it emits what they emit,
and comes back to its context with the stack that they leave. -/
def Replays (site : Site) (x : Walk Unit) (rs : List Reference) : Prop :=
  ∀ s : State, x s =
    resume s.context (left s.stack rs) (replay site s.context s.stack.maps rs s.progress)

theorem Replays.append {site : Site} {x y : Walk Unit} {rs rs' : List Reference}
    (hx : Replays site x rs) (hy : Replays site y rs') : Replays site (do x; y) (rs ++ rs') := by
  intro s
  rw [bind_apply, hx s, replay_append, bind_apply]
  cases replay site s.context s.stack.maps rs s.progress with
  | error e p => rfl
  | ok u p =>
      -- `y` begins in the context of `x`, with the stack that `rs` left
      show y ⟨p, s.context, left s.stack rs⟩ =
        resume s.context (left s.stack (rs ++ rs'))
          (replay site s.context (left s.stack rs).maps rs' p)
      rw [hy, left_append]

theorem Replays.inRole {site : Site} {x : Walk Unit} {rs : List Reference} (role : Role)
    (h : Replays site x rs) : Replays site (inRole role x) (rs.map (·.under role)) := by
  intro s
  have hleft : left s.stack (rs.map (·.under role)) = left s.stack rs := by cases rs <;> rfl
  rw [Walk.inRole, h, replay_under, hleft]
  cases replay site (s.context.enter role) s.stack.maps rs s.progress <;> rfl

/-- Entering an expression puts its substitution on the stack; leaving it
cuts the stack back. -/
theorem withResolutions_apply (map : Substitution) (inside : Walk Unit) (s : State) :
    withResolutions map inside s =
      match inside { s with stack := s.stack.push map } with
      | .ok _ s' => .ok () { s' with stack := s'.stack.truncate s.stack.length }
      | .error e s' => .error e s' := by
  show ((do inside; modify fun s' => { s' with stack := s'.stack.truncate s.stack.length }) :
    Walk Unit) { s with stack := s.stack.push map } = _
  rw [bind_apply]
  cases inside { s with stack := s.stack.push map } <;> rfl

theorem Replays.withResolutions {site : Site} {x : Walk Unit} {rs : List Reference}
    (map : Substitution) (h : Replays site x rs) :
    Replays site (withResolutions map x) (rs.mapIdx fun i r => r.within map i) := by
  intro s
  have hleft : left s.stack (rs.mapIdx fun i r => r.within map i) =
      (left (s.stack.push map) rs).truncate s.stack.length := by
    cases rs with
    | nil => exact (Substitution.Stack.truncate_push s.stack map).symm
    | cons r rs =>
        rw [List.mapIdx_cons]
        show (∅ : Substitution.Stack) = (∅ : Substitution.Stack).truncate s.stack.length
        rw [Substitution.Stack.truncate_of_length_le (Nat.zero_le _)]
  rw [withResolutions_apply, h, replay_within, hleft]
  cases replay site s.context (s.stack.push map).maps rs s.progress <;> rfl

/-- A walk replays the references of an expression. -/
theorem visitor_reads (site : Site) : (visitor site).Reads (Replays site) where
  -- what enters an operand or an expression undoes it on leaving, so only
  -- references change the state for good
  nil _ := rfl
  append hx hy := hx.append hy
  operand role _ _ h := h.inRole role
  expression e _ _ h := h.withResolutions e.resolutions
  identifier target e s := by
    cases target with
    | localVariable name => rfl
    | callable name =>
        have hreplay : replay site s.context s.stack.maps [.bare name] =
            site.emit name (variants s.context) (s.stack.chain site.resolutions) := by
          simp only [replay, List.forM_nil, bind_pure_comp, id_map', Reference.maps_bare,
            Reference.contextIn_bare, List.nil_append]
          rfl
        show reference site name s =
          resume s.context ∅ (replay site s.context s.stack.maps [.bare name] s.progress)
        rw [reference_apply, hreplay]

/-! ## the references of a body -/

/-- The variants that a walk finds out about are those of the surroundings. -/
theorem variants_contextIn (r : Reference) : variants (r.contextIn .initial) = r.variants := by
  by_cases h : r.Direct
  · rw [variants_of_direct (r.direct_contextIn_iff.2 h), Reference.variants, if_pos h,
      CallContext.variant, r.adjoint_contextIn, r.controlled_contextIn]
  · have hdirect : (r.contextIn .initial).direct = false := by
      rw [← Bool.not_eq_true, r.direct_contextIn_iff]
      exact h
    rw [variants_of_not_direct hdirect, Reference.variants, if_neg h, Variant.all]

/-- A step of a walk between root expressions replays the given references:
it begins and ends without context and with nothing waiting. -/
def ReplaysRoots (site : Site) (x : Walk Unit) (rs : List Reference) : Prop :=
  ∀ p : Progress, x ⟨p, .initial, ∅⟩ = resume .initial ∅ (replay site .initial [] rs p)

theorem ReplaysRoots.append {site : Site} {x y : Walk Unit} {rs rs' : List Reference}
    (hx : ReplaysRoots site x rs) (hy : ReplaysRoots site y rs') :
    ReplaysRoots site (do x; y) (rs ++ rs') := by
  intro p
  have hleft : (left ∅ rs).maps = [] := by cases rs <;> rfl
  have hreplay : replay site .initial [] (rs ++ rs') =
      (do replay site .initial [] rs; replay site .initial [] rs') := by
    have h := replay_append site .initial ∅ rs rs'
    rw [hleft] at h
    exact h
  rw [bind_apply, hx, hreplay, bind_apply]
  cases replay site .initial [] rs p with
  | error e q => rfl
  | ok u q => exact hy q

/-- A walk replays the references of a body. -/
theorem visitor_readsRoots (site : Site) : (visitor site).ReadsRoots (ReplaysRoots site) where
  nil _ := rfl
  append hx hy := hx.append hy
  root e p := by
    rw [(visitor_reads site).visitExpression e ⟨p, .initial, ∅⟩]
    cases e.references <;> rfl
  statement _ _ _ h p := h p
  scope _ _ _ h := h

/-- Walking a body is emitting what its references emit, one after the
other. -/
theorem body_eq_forM (site : Site) (scope : Scope) :
    body site scope =
      forM scope.references fun r => site.emit r.name r.variants (r.chain site.resolutions) := by
  funext p
  have hvisit := (visitor_readsRoots site).visitScope scope p
  rw [replay_nil_eq_forM] at hvisit
  simp only [variants_contextIn] at hvisit
  rw [body, hvisit]
  cases forM scope.references
    (fun r => site.emit r.name r.variants (r.chain site.resolutions)) p <;> rfl

end Walk

end CallGraphs
