import CallGraphs.Proofs.BoundTypes

/-!
# CallGraphs.Proofs.Termination

When construction on demand ends.  A node is processed at most once, so a
construction ends if finitely many nodes are reached.  Direct and mutual
recursion do not matter as long as the types of a program do not grow.  Two
generic operations that instantiate each other at ever larger types reach
infinitely many nodes, and no error comes up either.

* `build_ends_iff` — a construction that meets no error ends exactly when
  finitely many nodes are reached;
* `mutual_recursion_never_ends` — a construction that does not end.
-/

namespace CallGraphs

/-! ## mutual recursion -/

namespace MutualRecursion

open Substitution Combiner

/-- The names of the operations. -/
def operationName (name : String) : QualifiedName := ⟨"Test", name⟩

/-- The parameter of `A`. -/
def parameterOfA : TypeParameter := ⟨operationName "A", "T"⟩

/-- The parameter of `B`. -/
def parameterOfB : TypeParameter := ⟨operationName "B", "U"⟩

/-- A body that calls an operation at a type. -/
def callBody (p : TypeParameter) (t : Ty) : Scope :=
  [.expression
    ⟨.call ⟨.identifier (.callable p.origin), .missing, ∅⟩ ⟨.literal .unit, .missing, ∅⟩,
      .missing, single p t⟩]

/-- An operation with a body. -/
def operation (name : String) (parameters : List String) (body : Scope) : Callable :=
  ⟨operationName name, .operation, parameters, [⟨.body, none, .provided body⟩]⟩

/-- A program in which `Main` calls `A` at integers, `A` calls `B` at what
`step` makes of its parameter, and `B` calls `A` at its own parameter. -/
def program (step : Ty → Ty) : Program :=
  ⟨[⟨"Test",
    [operation "Main" [] (callBody parameterOfA (.primitive .int)),
      operation "A" ["T"] (callBody parameterOfB (step (.parameter parameterOfA))),
      operation "B" ["U"] (callBody parameterOfA (.parameter parameterOfB))]⟩]⟩

/-- Integers in arrays of a given depth. -/
def arrays : Nat → Ty
  | 0 => .primitive .int
  | depth + 1 => .array (arrays depth)

/-- The body of an operation at integers in arrays. -/
def instanceAt (name : String) (depth : Nat) : Node :=
  ⟨operationName name, .body, some [arrays depth]⟩

theorem mentions_arrays (p : TypeParameter) (depth : Nat) : (arrays depth).mentions p = false := by
  induction depth with
  | zero => rfl
  | succ depth ih => rw [arrays, Ty.mentions, ih]

theorem arrays_injective : Function.Injective arrays := by
  intro i j h
  induction i generalizing j with
  | zero => cases j <;> simp [arrays] at h ⊢
  | succ i ih =>
      cases j with
      | zero => simp [arrays] at h
      | succ j => simp only [arrays, Ty.array.injEq] at h; rw [ih h]

/-- A body that calls an operation emits one dependency. -/
theorem emissions_callBody (site : Site) {name parameter : String} {t u : Ty} {body : Scope}
    {combined : Substitution}
    (hcombined : site.combiner [single ⟨operationName name, parameter⟩ t, site.resolutions] =
      .ok combined)
    (hcallable : site.find? (operationName name) = some (operation name [parameter] body))
    (hbound : combined.get? ⟨operationName name, parameter⟩ = some u) :
    (site.emissions (Scope.references (callBody ⟨operationName name, parameter⟩ t))).error = none ∧
    (site.emissions (Scope.references (callBody ⟨operationName name, parameter⟩ t))).edges =
      [⟨site.caller, ⟨operationName name, .body, some [u]⟩,
        single ⟨operationName name, parameter⟩ u⟩] := by
  let r : Reference :=
    ⟨operationName name, [.callee], [⟨∅, 0⟩, ⟨single ⟨operationName name, parameter⟩ t, 0⟩]⟩
  have hreferences : Scope.references (callBody ⟨operationName name, parameter⟩ t) = [r] := rfl
  have hvariants : r.variants = [.body] := if_pos ⟨[], [], rfl, by simp⟩
  have hbindings : Walk.bindings site.caller (operationName name)
      (operation name [parameter] body) combined =
      .ok [(⟨operationName name, parameter⟩, u)] := by
    show [(⟨operationName name, parameter⟩ : TypeParameter)].mapM _ = _
    simp only [List.mapM_cons, List.mapM_nil, hbound]
    rfl
  have hresolve : site.resolve r =
      .ok (some [u], single ⟨operationName name, parameter⟩ u) := by
    have hchain : r.chain site.resolutions =
        [single ⟨operationName name, parameter⟩ t, site.resolutions] := rfl
    rw [Site.resolve, hchain, hcombined]
    simp only [Site.target, r, hcallable, hbindings]
    rfl
  rw [hreferences, Site.emissions, hresolve]
  dsimp only
  rw [hvariants]
  exact ⟨rfl, rfl⟩

/-- A node calls another one if it is good and emits dependencies on that one
only. -/
structure Calls (find? : QualifiedName → Option Callable) (n m : Node) : Prop where
  good : Builder.standard.Good find? n
  emits : ∃ r, Builder.standard.Emits find? n m r
  unique : ∀ m' r, Builder.standard.Emits find? n m' r → m' = m

/-- A node whose body calls an operation calls it at the type that is combined
for it. -/
theorem calls_of_combined {find? : QualifiedName → Option Callable} {n : Node}
    {resolutions combined : Substitution} {name parameter : String} {t u : Ty} {body : Scope}
    (hn : n.StandsFor find?
      ⟨.body, none, .provided (callBody ⟨operationName name, parameter⟩ t)⟩ resolutions)
    (hcombined : compose [single ⟨operationName name, parameter⟩ t, resolutions] = .ok combined)
    (hcallable : find? (operationName name) = some (operation name [parameter] body))
    (hbound : combined.get? ⟨operationName name, parameter⟩ = some u) :
    Calls find? n ⟨operationName name, .body, some [u]⟩ := by
  obtain ⟨herror, hedges⟩ := emissions_callBody (Builder.standard.site find? n resolutions)
    hcombined hcallable hbound
  constructor
  case good => exact (Builder.good_iff rfl hn).2 herror
  case emits =>
    refine ⟨single ⟨operationName name, parameter⟩ u, (Builder.emits_iff rfl hn).2 ?_⟩
    show _ ∈ ((Builder.standard.site find? n resolutions).emissions _).edges
    rw [hedges]
    exact List.mem_singleton.2 rfl
  case unique =>
    intro m r h
    have he := (Builder.emits_iff rfl hn).1 h
    change _ ∈ ((Builder.standard.site find? n resolutions).emissions _).edges at he
    rw [hedges, List.mem_singleton] at he
    exact congrArg Edge.callee he

/-- A node at integers in arrays calls an operation at what its body makes of
them. -/
theorem calls_of_arrays {find? : QualifiedName → Option Callable} {n : Node} {q : TypeParameter}
    {name parameter : String} {t : Ty} {body : Scope} {depth depth' : Nat}
    (hn : n.StandsFor find?
      ⟨.body, none, .provided (callBody ⟨operationName name, parameter⟩ t)⟩
      (single q (arrays depth)))
    (hq : q ≠ ⟨operationName name, parameter⟩)
    (ht : t.substitute (single q (arrays depth)) = arrays depth')
    (hcallable : find? (operationName name) = some (operation name [parameter] body)) :
    Calls find? n (instanceAt name depth') := by
  have hclosed (x : TypeParameter) :
      (t.substitute (single q (arrays depth))).mentions x = false := by
    rw [ht]
    exact mentions_arrays x depth'
  have hcombined := compose_single hq hclosed fun x => mentions_arrays x depth
  rw [ht] at hcombined
  refine calls_of_combined hn hcombined hcallable ?_
  rw [get?_insert, if_neg hq.symm]
  exact (get?_single _ _ _).trans (if_pos rfl)

theorem find?_main (step : Ty → Ty) : (program step).find? (operationName "Main") =
    some (operation "Main" [] (callBody parameterOfA (.primitive .int))) := rfl

theorem find?_a (step : Ty → Ty) : (program step).find? (operationName "A") =
    some (operation "A" ["T"] (callBody parameterOfB (step (.parameter parameterOfA)))) := rfl

theorem find?_b (step : Ty → Ty) : (program step).find? (operationName "B") =
    some (operation "B" ["U"] (callBody parameterOfA (.parameter parameterOfB))) := rfl

/-- `Main` calls `A` at integers. -/
theorem calls_of_main :
    Calls (program .array).find? (.entry (operationName "Main")) (instanceAt "A" 0) := by
  refine calls_of_combined ⟨_, find?_main _, rfl, rfl⟩
    (compose_single_empty parameterOfA (fun x => mentions_arrays x 0)) (find?_a _) ?_
  exact (get?_single _ _ _).trans (if_pos rfl)

/-- `A` calls `B` at larger arrays. -/
theorem calls_of_a (depth : Nat) :
    Calls (program .array).find? (instanceAt "A" depth) (instanceAt "B" (depth + 1)) := by
  have ht : (Ty.array (.parameter parameterOfA)).substitute (single parameterOfA (arrays depth)) =
      arrays (depth + 1) := by
    simp [Ty.substitute, get?_single, arrays]
  exact calls_of_arrays ⟨_, find?_a _, rfl, rfl⟩ (by decide) ht (find?_b _)

/-- `B` calls `A` at the same arrays. -/
theorem calls_of_b (depth : Nat) :
    Calls (program .array).find? (instanceAt "B" depth) (instanceAt "A" depth) := by
  have ht : (Ty.parameter parameterOfB).substitute (single parameterOfB (arrays depth)) =
      arrays depth := by
    simp [Ty.substitute, get?_single]
  exact calls_of_arrays ⟨_, find?_b _, rfl, rfl⟩ (by decide) ht (find?_a _)

/-- The reached nodes are good. -/
theorem good_of_reached {n : Node}
    (h : Builder.standard.Reached (program .array).find? [operationName "Main"] n) :
    Builder.standard.Good (program .array).find? n := by
  have hshape : n = .entry (operationName "Main") ∨
      ∃ depth, n = instanceAt "A" depth ∨ n = instanceAt "B" depth := by
    induction h with
    | entry hname => exact .inl (congrArg Node.entry (List.mem_singleton.1 hname))
    | step hn hm ih =>
        obtain rfl | ⟨depth, rfl | rfl⟩ := ih
        · exact .inr ⟨0, .inl (calls_of_main.unique _ _ hm)⟩
        · exact .inr ⟨depth + 1, .inr ((calls_of_a depth).unique _ _ hm)⟩
        · exact .inr ⟨depth, .inl ((calls_of_b depth).unique _ _ hm)⟩
  obtain rfl | ⟨depth, rfl | rfl⟩ := hshape
  · exact calls_of_main.good
  · exact (calls_of_a depth).good
  · exact (calls_of_b depth).good

/-- `A` is reached at arrays of every depth. -/
theorem reached_instanceAt (depth : Nat) :
    Builder.standard.Reached (program .array).find? [operationName "Main"]
      (instanceAt "A" depth) := by
  induction depth with
  | zero =>
      obtain ⟨r, hr⟩ := calls_of_main.emits
      exact .step (.entry (List.mem_singleton.2 rfl)) hr
  | succ depth ih =>
      obtain ⟨r, hr⟩ := (calls_of_a depth).emits
      obtain ⟨r', hr'⟩ := (calls_of_b (depth + 1)).emits
      exact .step (.step ih hr) hr'

/-- Infinitely many nodes are reached. -/
theorem infinite_reached :
    {n | Builder.standard.Reached (program .array).find? [operationName "Main"] n}.Infinite := by
  have hinjective : Function.Injective (instanceAt "A") := by
    intro i j h
    simp only [instanceAt, Node.mk.injEq, Option.some.injEq, List.cons.injEq] at h
    exact arrays_injective h.2.2.1
  exact Set.infinite_of_injective_forall_mem hinjective reached_instanceAt

end MutualRecursion

namespace Builder

/-! ## ends -/

/-- A construction ends exactly when finitely many nodes are reached or an
error comes up.  If all reached nodes are good, no error does.  Finitely many
are reached, whatever recursion there is, in a program that instantiates only
at parameters and at types without parameters. -/
theorem build_ends_iff (program : Program) (entryPoints : List QualifiedName) (traceEdges : Bool)
    (hentries : entryPoints ≠ []) :
    let b : Builder := ⟨Combiner.compose, ⟨none, traceEdges⟩⟩
    let reached : Set Node := {n | b.Reached program.find? entryPoints n}
    ((∃ looks, (b.build program entryPoints looks).outcome ≠ .unfinished) ↔
      reached.Finite ∨ ∃ looks e, (b.build program entryPoints looks).outcome = .failed e) ∧
    ((∀ n ∈ reached, b.Good program.find? n) →
      ((∃ looks, (b.build program entryPoints looks).outcome ≠ .unfinished) ↔ reached.Finite)) ∧
    (reached.Finite → ∀ looks, reached.ncard < looks →
      (b.build program entryPoints looks).outcome ≠ .unfinished) ∧
    ((∀ t ∈ program.boundTypes, t.Flat) → reached.Finite) := by
  intro b reached
  have hlimit : b.options.nodeLimit = none := rfl
  have hends (hfinite : reached.Finite) (looks : Nat) (hlooks : reached.ncard < looks) :
      (b.build program entryPoints looks).outcome ≠ .unfinished :=
    outcome_ne_unfinished hentries hlimit hfinite hlooks
  have hfails : (∃ looks, (b.build program entryPoints looks).outcome ≠ .unfinished) ↔
      reached.Finite ∨ ∃ looks e, (b.build program entryPoints looks).outcome = .failed e := by
    constructor
    · rintro ⟨looks, h⟩
      cases houtcome : (b.build program entryPoints looks).outcome with
      | built g st =>
          obtain ⟨q, hq, hpending, -, -⟩ := exists_of_built hentries hlimit houtcome
          exact .inl (hq.finite_reached hpending)
      | failed e => exact .inr ⟨looks, e, houtcome⟩
      | unfinished => exact absurd houtcome h
    · rintro (hfinite | ⟨looks, e, h⟩)
      · exact ⟨_, hends hfinite _ (Nat.lt_succ_self _)⟩
      · exact ⟨looks, by simp [h]⟩
  refine ⟨hfails, fun hgood => hfails.trans (or_iff_left ?_), hends, fun hflat => ?_⟩
  · rintro ⟨looks, e, h⟩
    obtain ⟨n, hn, hbad⟩ := exists_not_good_of_failed hentries hlimit h
    exact hbad (hgood n hn)
  · exact finite_reached_of_flat rfl hlimit hflat

/-- If `A` and `B` call each other at their own parameters, a construction
ends. -/
theorem build_ends_of_mutual_recursion :
    [MutualRecursion.operationName "Main"] ≠ [] ∧
    ∃ looks, (standard.build (MutualRecursion.program id)
      [MutualRecursion.operationName "Main"] looks).outcome ≠ .unfinished := by
  have hentries : [MutualRecursion.operationName "Main"] ≠ [] := List.cons_ne_nil _ _
  have htypes : (MutualRecursion.program id).boundTypes =
      [.primitive .int, .parameter MutualRecursion.parameterOfA,
        .parameter MutualRecursion.parameterOfB] := by decide +kernel
  have hflat : ∀ t ∈ (MutualRecursion.program id).boundTypes, t.Flat := by
    rw [htypes]
    simp [Ty.Flat, Ty.mentions]
  have h := build_ends_iff (MutualRecursion.program id) _ false hentries
  exact ⟨hentries, h.1.2 (.inl (h.2.2.2 hflat))⟩

/-- If `A` calls `B` at arrays of its parameter and `B` calls `A` at its own,
no number of looks is enough. -/
theorem mutual_recursion_never_ends :
    [MutualRecursion.operationName "Main"] ≠ [] ∧
    standard.combiner = Combiner.compose ∧ standard.options.nodeLimit = none ∧
    ¬ ∃ looks, (standard.build (MutualRecursion.program .array)
      [MutualRecursion.operationName "Main"] looks).outcome ≠ .unfinished := by
  have hentries : [MutualRecursion.operationName "Main"] ≠ [] := List.cons_ne_nil _ _
  refine ⟨hentries, rfl, rfl, ?_⟩
  rintro ⟨looks, h⟩
  cases houtcome : (standard.build (MutualRecursion.program .array)
      [MutualRecursion.operationName "Main"] looks).outcome with
  | built g st =>
      obtain ⟨q, hq, hpending, -, -⟩ := exists_of_built hentries rfl houtcome
      exact MutualRecursion.infinite_reached (hq.finite_reached hpending)
  | failed e =>
      obtain ⟨n, hn, hbad⟩ := exists_not_good_of_failed hentries rfl houtcome
      exact hbad (MutualRecursion.good_of_reached hn)
  | unfinished => exact h houtcome

end Builder

end CallGraphs
