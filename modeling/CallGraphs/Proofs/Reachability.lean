import CallGraphs.Proofs.Processing
import Mathlib.Data.Set.Card

/-!
# CallGraphs.Proofs.Reachability

Construction on demand without a limit computes the nodes that are reached
from the entry points.  The nodes that came out of the worklist are good and
reached, the graph holds their dependencies, and what these lead to was
accepted; so nothing is missing when nothing is pending any more.

* `Invariant.step` — what processing one node preserves;
* `Invariant.drain` — what is known after any number of looks;
* `build_reaches` — the graph of a construction that ends.
-/

namespace CallGraphs

namespace Builder

variable {b : Builder} {find? : QualifiedName → Option Callable}
  {entryPoints : List QualifiedName} {p q : Progress} {n : Node}

/-! ## seeds -/

/-- Offering several entry points to a worklist. -/
theorem mem_accepted_foldl_offer {w : Worklist} (h : w.active = true)
    (entryPoints : List QualifiedName) :
    (entryPoints.foldl (fun w name => (w.offer (.entry name)).2) w).active = true ∧
    (entryPoints.foldl (fun w name => (w.offer (.entry name)).2) w).resolved = w.resolved ∧
    ∀ x, x ∈ (entryPoints.foldl (fun w name => (w.offer (.entry name)).2) w).accepted ↔
      x ∈ w.accepted ∨ ∃ name ∈ entryPoints, x = .entry name := by
  induction entryPoints generalizing w with
  | nil => exact ⟨h, rfl, by simp⟩
  | cons name names ih =>
      have hfirst : (w.offer (.entry name)).2.active = true := by rw [Worklist.active_offer, h]
      obtain ⟨hactive, hresolved, haccepted⟩ := ih hfirst
      refine ⟨hactive, hresolved.trans (w.resolved_offer _), fun x => ?_⟩
      rw [List.foldl_cons, haccepted, Worklist.mem_accepted_offer h]
      simp only [List.mem_cons, exists_eq_or_imp, or_assoc]

/-! ## reached nodes -/

/-- The nodes that are reached from the entry points: their bodies, and what
the bodies of reached nodes depend on. -/
inductive Reached (b : Builder) (find? : QualifiedName → Option Callable)
    (entryPoints : List QualifiedName) : Node → Prop
  | entry {name : QualifiedName} (h : name ∈ entryPoints) :
      Reached b find? entryPoints (.entry name)
  | step {n m : Node} {r : Substitution} (hn : Reached b find? entryPoints n)
      (hm : b.Emits find? n m r) : Reached b find? entryPoints m

/-- What holds of a construction each time it looks for a next node. -/
structure Invariant (b : Builder) (find? : QualifiedName → Option Callable)
    (entryPoints : List QualifiedName) (p : Progress) : Prop where
  active : p.worklist.active = true
  entries : ∀ name ∈ entryPoints, .entry name ∈ p.worklist.accepted
  reached : ∀ n ∈ p.worklist.accepted, b.Reached find? entryPoints n
  good : ∀ n ∈ p.worklist.resolved, b.Good find? n
  closed : ∀ n ∈ p.worklist.resolved, ∀ m r, b.Emits find? n m r → m ∈ p.worklist.accepted
  resolved_subset : ∀ n ∈ p.worklist.resolved, n ∈ p.graph.nodes
  nodes_subset : ∀ n ∈ p.graph.nodes, n ∈ p.worklist.accepted
  edges : ∀ e, e ∈ p.graph.edges ↔
    e.caller ∈ p.worklist.resolved ∧ b.Emits find? e.caller e.callee e.resolutions
  processed : p.processed = p.worklist.resolved.length

/-- A construction begins with the entry points. -/
theorem Invariant.initial (b : Builder) (find? : QualifiedName → Option Callable)
    (entryPoints : List QualifiedName) :
    b.Invariant find? entryPoints (.initial (seeds entryPoints)) := by
  obtain ⟨hactive, hresolved, haccepted⟩ :=
    mem_accepted_foldl_offer (w := .demandDriven) rfl entryPoints
  have hnone (n : Node) : n ∉ (seeds entryPoints).resolved := by
    rw [seeds, hresolved]
    exact List.not_mem_nil
  constructor
  case active => exact hactive
  case entries => exact fun name h => (haccepted _).2 (.inr ⟨name, h, rfl⟩)
  case reached =>
    intro n hn
    obtain h | ⟨name, h, rfl⟩ := (haccepted n).1 hn
    · exact absurd h List.not_mem_nil
    · exact .entry h
  case good => exact fun n hn => absurd hn (hnone n)
  case closed => exact fun n hn => absurd hn (hnone n)
  case resolved_subset => exact fun n hn => absurd hn (hnone n)
  case nodes_subset => exact fun n hn => absurd hn List.not_mem_nil
  case edges =>
    intro e
    exact ⟨fun he => absurd he List.not_mem_nil, fun he => absurd he.1 (hnone _)⟩
  case processed => exact (congrArg List.length hresolved).symm

/-- Processing the next node preserves the invariant. -/
theorem Invariant.step (h : b.Invariant find? entryPoints p)
    (hlimit : b.options.nodeLimit = none) {w : Worklist} (hpop : p.worklist.pop = some (n, w))
    (hn : b.processNode find? n { p with worklist := w } = .ok () q) :
    b.Invariant find? entryPoints q := by
  obtain ⟨-, hresolved, hactive⟩ := Worklist.pop_eq_some hpop
  have hgrows := processNode_grows hlimit hn
  have haccepted (x : Node) : x ∈ q.worklist.accepted ↔
      x ∈ p.worklist.accepted ∨ ∃ r, b.Emits find? n x r := by
    rw [hgrows.accepted (hactive.trans h.active), Worklist.mem_accepted_of_pop hpop]
  have hmem (x : Node) : x ∈ q.worklist.resolved ↔ x = n ∨ x ∈ p.worklist.resolved := by
    rw [hgrows.resolved, hresolved, List.mem_cons]
  have hnext : n ∈ p.worklist.accepted := Worklist.next_mem_accepted hpop
  constructor
  case active => rw [hgrows.active, hactive, h.active]
  case entries => exact fun name hname => (haccepted _).2 (.inl (h.entries name hname))
  case reached =>
    intro x hx
    obtain hx | ⟨r, hr⟩ := (haccepted x).1 hx
    · exact h.reached x hx
    · exact .step (h.reached n hnext) hr
  case good =>
    intro x hx
    obtain rfl | hx := (hmem x).1 hx
    · exact (processNode_ok_iff hlimit).1 ⟨q, hn⟩
    · exact h.good x hx
  case closed =>
    intro x hx m r hm
    obtain rfl | hx := (hmem x).1 hx
    · exact (haccepted m).2 (.inr ⟨r, hm⟩)
    · exact (haccepted m).2 (.inl (h.closed x hx m r hm))
  case resolved_subset =>
    intro x hx
    obtain rfl | hx := (hmem x).1 hx
    · exact (hgrows.nodes x).2 (.inr (.inl rfl))
    · exact (hgrows.nodes x).2 (.inl (h.resolved_subset x hx))
  case nodes_subset =>
    intro x hx
    obtain hx | rfl | hx := (hgrows.nodes x).1 hx
    · exact (haccepted x).2 (.inl (h.nodes_subset x hx))
    · exact (haccepted x).2 (.inl hnext)
    · exact (haccepted x).2 (.inr hx)
  case edges =>
    intro e
    rw [hgrows.edges, h.edges, hmem]
    constructor
    · rintro (⟨hcaller, he⟩ | ⟨rfl, he⟩)
      · exact ⟨.inr hcaller, he⟩
      · exact ⟨.inl rfl, he⟩
    · rintro ⟨rfl | hcaller, he⟩
      · exact .inr ⟨rfl, he⟩
      · exact .inl ⟨hcaller, he⟩
  case processed =>
    rw [hgrows.processed, hgrows.resolved, hresolved, List.length_cons, h.processed]

/-! ## runs -/

/-- What is known after a number of looks: the invariant holds with nothing
pending, or with as many nodes more as there were looks, unless a reached
node is not good. -/
theorem Invariant.drain (h : b.Invariant find? entryPoints p)
    (hlimit : b.options.nodeLimit = none) (looks : Nat) :
    match b.drain find? looks p with
    | .ok true q => b.Invariant find? entryPoints q ∧ q.worklist.pending = []
    | .ok false q => b.Invariant find? entryPoints q ∧
        q.worklist.resolved.length = p.worklist.resolved.length + looks
    | .error _ _ => ∃ n, b.Reached find? entryPoints n ∧ ¬ b.Good find? n := by
  -- by induction on the looks: `step` carries the invariant over the first one
  induction looks generalizing p with
  | zero => exact ⟨h, rfl⟩
  | succ looks ih =>
      rw [drain_step]
      cases hpop : p.worklist.pop with
      | none => exact ⟨h, Worklist.pop_eq_none_iff.1 hpop⟩
      | some next =>
          obtain ⟨n, w⟩ := next
          obtain ⟨-, hresolved, -⟩ := Worklist.pop_eq_some hpop
          dsimp only
          cases hn : b.processNode find? n { p with worklist := w } with
          | error e q =>
              refine ⟨n, h.reached n (Worklist.next_mem_accepted hpop), fun hgood => ?_⟩
              obtain ⟨q', hq'⟩ := (processNode_ok_iff hlimit).2 hgood
              rw [hn] at hq'
              cases hq'
          | ok u q =>
              have hlength : q.worklist.resolved.length = p.worklist.resolved.length + 1 := by
                rw [(processNode_grows hlimit hn).resolved, hresolved, List.length_cons]
              have hrest := ih (h.step hlimit hpop hn)
              rw [hlength, Nat.add_right_comm] at hrest
              exact hrest

/-- No more nodes come out than are reached. -/
theorem Invariant.length_resolved_le (h : b.Invariant find? entryPoints p)
    (hfinite : {n | b.Reached find? entryPoints n}.Finite) :
    p.worklist.resolved.length ≤ {n | b.Reached find? entryPoints n}.ncard := by
  have hsubset : (p.worklist.resolved.toFinset : Set Node) ⊆
      {n | b.Reached find? entryPoints n} := by
    intro n hn
    have hn : n ∈ p.worklist.resolved := by simpa using hn
    exact h.reached n (List.mem_append_right _ hn)
  calc p.worklist.resolved.length
      = p.worklist.resolved.toFinset.card :=
        (List.toFinset_card_of_nodup p.worklist.resolved_nodup).symm
    _ = (p.worklist.resolved.toFinset : Set Node).ncard := (Set.ncard_coe_finset _).symm
    _ ≤ {n | b.Reached find? entryPoints n}.ncard := Set.ncard_le_ncard hsubset hfinite

/-- When nothing is pending, all reached nodes came out. -/
theorem Invariant.mem_resolved_iff (h : b.Invariant find? entryPoints p)
    (hpending : p.worklist.pending = []) :
    n ∈ p.worklist.resolved ↔ b.Reached find? entryPoints n := by
  have haccepted : p.worklist.accepted = p.worklist.resolved := by
    rw [Worklist.accepted, hpending, List.nil_append]
  constructor
  · intro hn
    exact h.reached n (haccepted ▸ hn)
  · intro hn
    induction hn with
    | entry hname => exact haccepted ▸ h.entries _ hname
    | step hn hm ih => exact haccepted ▸ h.closed _ ih _ _ hm

/-- When nothing is pending, the reached nodes are those that came out. -/
theorem Invariant.setOf_reached (h : b.Invariant find? entryPoints p)
    (hpending : p.worklist.pending = []) :
    {n | b.Reached find? entryPoints n} = (p.worklist.resolved.toFinset : Set Node) := by
  ext n
  simp [h.mem_resolved_iff hpending]

/-- When nothing is pending, finitely many nodes are reached. -/
theorem Invariant.finite_reached (h : b.Invariant find? entryPoints p)
    (hpending : p.worklist.pending = []) : {n | b.Reached find? entryPoints n}.Finite := by
  rw [h.setOf_reached hpending]
  exact Finset.finite_toSet _

/-- When nothing is pending, the nodes of the graph are those that came out. -/
theorem Invariant.mem_nodes_iff (h : b.Invariant find? entryPoints p)
    (hpending : p.worklist.pending = []) :
    n ∈ p.graph.nodes ↔ n ∈ p.worklist.resolved := by
  constructor
  · intro hn
    have haccepted := h.nodes_subset n hn
    rw [Worklist.accepted, hpending, List.nil_append] at haccepted
    exact haccepted
  · exact h.resolved_subset n

/-- When nothing is pending, as many nodes were processed as are reached. -/
theorem Invariant.length_nodes (h : b.Invariant find? entryPoints p)
    (hpending : p.worklist.pending = []) :
    p.graph.nodes.length = p.processed ∧
      p.graph.nodes.length = {n | b.Reached find? entryPoints n}.ncard := by
  have hperm : p.graph.nodes.Perm p.worklist.resolved :=
    (List.perm_ext_iff_of_nodup p.graph.nodes_nodup p.worklist.resolved_nodup).2
      fun n => h.mem_nodes_iff hpending
  have hcard : {n | b.Reached find? entryPoints n}.ncard = p.worklist.resolved.length := by
    rw [h.setOf_reached hpending, Set.ncard_coe_finset,
      List.toFinset_card_of_nodup p.worklist.resolved_nodup]
  exact ⟨hperm.length_eq.trans h.processed.symm, hperm.length_eq.trans hcard.symm⟩

/-! ## outcomes -/

/-- The graph of a construction that ended with one. -/
def Outcome.graph? {ε : Type} : Outcome ε → Option CallGraph
  | .built g _ => some g
  | .failed _ => none
  | .unfinished => none

/-- The error of a construction that ended with one. -/
def Outcome.error? {ε : Type} : Outcome ε → Option ε
  | .built _ _ => none
  | .failed e => some e
  | .unfinished => none

theorem Outcome.exists_built {ε α : Type} {outcome : Outcome ε} {f : CallGraph → α} {a : α}
    (h : outcome.graph?.map f = some a) : ∃ g st, outcome = .built g st ∧ f g = a := by
  cases outcome with
  | built g st => exact ⟨g, st, rfl, Option.some.inj h⟩
  | failed e => cases h
  | unfinished => cases h

theorem Outcome.eq_failed {ε : Type} {outcome : Outcome ε} {e : ε} (h : outcome.error? = some e) :
    outcome = .failed e := by
  cases outcome with
  | built g st => cases h
  | failed e' => rw [Option.some.inj h]
  | unfinished => cases h

/-! ## constructions -/

/-- With entry points a construction is a report on looking for nodes. -/
theorem build_of_ne_nil (b : Builder) (program : Program) (h : entryPoints ≠ []) (looks : Nat) :
    b.build program entryPoints looks =
      report .demandDriven (.demandDrivenStart program.nameCount entryPoints.length)
        (b.drain program.find? looks (.initial (seeds entryPoints))) := by
  rw [build, if_neg h]
  rfl

/-- How a construction on demand ends. -/
theorem build_outcome (b : Builder) (program : Program) (h : entryPoints ≠ []) (looks : Nat) :
    (b.build program entryPoints looks).outcome =
      match b.drain program.find? looks (.initial (seeds entryPoints)) with
      | .ok true q => .built q.graph (statistics .demandDriven q)
      | .ok false _ => .unfinished
      | .error e _ => .failed e := by
  rw [build_of_ne_nil b program h]
  cases b.drain program.find? looks (.initial (seeds entryPoints)) with
  | error e q => rfl
  | ok done q => cases done <;> rfl

/-- A construction that fails has come to a state with its chains, by looking
for nodes and processing them. -/
theorem exists_of_failed {program : Program} (h : entryPoints ≠ []) {looks : Nat} {e : BuildError}
    (hfailed : (b.build program entryPoints looks).outcome = .failed e) :
    ∃ q, b.drain program.find? looks (.initial (seeds entryPoints)) = .error e q ∧
      (b.build program entryPoints looks).chains = q.chains := by
  rw [build_of_ne_nil b program h] at hfailed ⊢
  cases hdrain : b.drain program.find? looks (.initial (seeds entryPoints)) with
  | error err q =>
      rw [hdrain] at hfailed
      cases hfailed
      exact ⟨q, rfl, rfl⟩
  | ok done q =>
      rw [hdrain] at hfailed
      cases done <;> cases hfailed

/-- A construction that ends with a graph has come to a state in which
nothing is pending, by looking for nodes and processing them. -/
theorem exists_of_built {program : Program} (hentries : entryPoints ≠ [])
    (hlimit : b.options.nodeLimit = none) {looks : Nat} {g : CallGraph} {st : Statistics}
    (h : (b.build program entryPoints looks).outcome = .built g st) :
    ∃ q, b.Invariant program.find? entryPoints q ∧ q.worklist.pending = [] ∧
      g = q.graph ∧ st = statistics .demandDriven q ∧
      b.drain program.find? looks (.initial (seeds entryPoints)) = .ok true q := by
  have hdrain := (Invariant.initial b program.find? entryPoints).drain hlimit looks
  rw [build_outcome b program hentries] at h
  cases hrun : b.drain program.find? looks (.initial (seeds entryPoints)) with
  | error e q => simp [hrun] at h
  | ok done q =>
      rw [hrun] at h hdrain
      cases done with
      | false => cases h
      | true =>
          cases h
          exact ⟨q, hdrain.1, hdrain.2, rfl, rfl, rfl⟩

/-- With more looks than nodes that are reached, a construction ends. -/
theorem outcome_ne_unfinished {program : Program} (hentries : entryPoints ≠ [])
    (hlimit : b.options.nodeLimit = none)
    (hfinite : {n | b.Reached program.find? entryPoints n}.Finite) {looks : Nat}
    (hlooks : {n | b.Reached program.find? entryPoints n}.ncard < looks) :
    (b.build program entryPoints looks).outcome ≠ .unfinished := by
  have hdrain := (Invariant.initial b program.find? entryPoints).drain hlimit looks
  rw [build_outcome b program hentries]
  cases hrun : b.drain program.find? looks (.initial (seeds entryPoints)) with
  | error e q => exact fun h => by cases h
  | ok done q =>
      rw [hrun] at hdrain
      cases done with
      | true => exact fun h => by cases h
      | false =>
          have hle := hdrain.1.length_resolved_le hfinite
          omega

/-- A construction that fails has come upon a reached node that is not good. -/
theorem exists_not_good_of_failed {program : Program} (hentries : entryPoints ≠ [])
    (hlimit : b.options.nodeLimit = none) {looks : Nat} {e : BuildError}
    (h : (b.build program entryPoints looks).outcome = .failed e) :
    ∃ n, b.Reached program.find? entryPoints n ∧ ¬ b.Good program.find? n := by
  have hdrain := (Invariant.initial b program.find? entryPoints).drain hlimit looks
  rw [build_outcome b program hentries] at h
  cases hrun : b.drain program.find? looks (.initial (seeds entryPoints)) with
  | error e q =>
      rw [hrun] at hdrain
      exact hdrain
  | ok done q => cases done <;> simp [hrun] at h

/-- Construction on demand computes exactly the reachable graph.  It ends
with a graph exactly when finitely many nodes are reached and all of them are
good.  Then the nodes of the graph are the reached ones, its edges are what
they emit, and each of them is processed once. -/
theorem build_reaches (b : Builder) (program : Program) (entryPoints : List QualifiedName)
    (hentries : entryPoints ≠ []) (hlimit : b.options.nodeLimit = none) :
    let reached : Set Node := {n | b.Reached program.find? entryPoints n}
    ((∃ looks g st, (b.build program entryPoints looks).outcome = .built g st) ↔
      reached.Finite ∧ ∀ n ∈ reached, b.Good program.find? n) ∧
    ∀ looks g st, (b.build program entryPoints looks).outcome = .built g st →
      (∀ n, n ∈ g.nodes ↔ n ∈ reached) ∧
      (∀ n m r, ⟨n, m, r⟩ ∈ g.edges ↔ n ∈ reached ∧ b.Emits program.find? n m r) ∧
      g.nodes.Nodup ∧ g.edges.Nodup ∧
      st.processed = reached.ncard ∧ st.nodes = reached.ncard := by
  intro reached
  refine ⟨⟨?_, ?_⟩, ?_⟩
  · rintro ⟨looks, g, st, h⟩
    obtain ⟨q, hq, hpending, -, -⟩ := exists_of_built hentries hlimit h
    refine ⟨hq.finite_reached hpending, fun n hn => ?_⟩
    exact hq.good n ((hq.mem_resolved_iff hpending).2 hn)
  · rintro ⟨hfinite, hgood⟩
    refine ⟨reached.ncard + 1, ?_⟩
    have hended := outcome_ne_unfinished hentries hlimit hfinite (Nat.lt_succ_self _)
    cases h : (b.build program entryPoints (reached.ncard + 1)).outcome with
    | built g st => exact ⟨g, st, rfl⟩
    | failed e =>
        obtain ⟨n, hn, hbad⟩ := exists_not_good_of_failed hentries hlimit h
        exact absurd (hgood n hn) hbad
    | unfinished => exact absurd h hended
  · intro looks g st h
    obtain ⟨q, hq, hpending, rfl, rfl, -⟩ := exists_of_built hentries hlimit h
    have hmem (n : Node) : n ∈ q.worklist.resolved ↔ n ∈ reached := hq.mem_resolved_iff hpending
    obtain ⟨hprocessed, hcard⟩ := hq.length_nodes hpending
    refine ⟨fun n => (hq.mem_nodes_iff hpending).trans (hmem n), fun n m r => ?_,
      q.graph.nodes_nodup, q.graph.edges_nodup, hprocessed.symm.trans hcard, hcard⟩
    rw [hq.edges, hmem]

/-- An operation that calls itself reaches itself only. -/
theorem build_reaches_self_call :
    let main : QualifiedName := ⟨"Test", "Main"⟩
    let unit : Expression := ⟨.literal .unit, .missing, ∅⟩
    let body : Scope :=
      [.expression ⟨.call ⟨.identifier (.callable main), .missing, ∅⟩ unit, .missing, ∅⟩]
    let program : Program :=
      ⟨[⟨"Test", [⟨main, .operation, [], [⟨.body, none, .provided body⟩]⟩]⟩]⟩
    [main] ≠ [] ∧ standard.options.nodeLimit = none ∧
    {n | standard.Reached program.find? [main] n} = {.entry main} ∧
    standard.Good program.find? (.entry main) := by
  intro main unit body program
  have hentries : [main] ≠ [] := List.cons_ne_nil _ _
  have hnodes : (match (standard.build program [main] 2).outcome with
      | .built g _ => g.nodes
      | .failed _ => []
      | .unfinished => []) = [.entry main] := by decide +kernel
  cases h : (standard.build program [main] 2).outcome with
  | failed e => simp [h] at hnodes
  | unfinished => simp [h] at hnodes
  | built g st =>
      have hmain := build_reaches standard program [main] hentries rfl
      have hreached : {n | standard.Reached program.find? [main] n} = {.entry main} := by
        ext n
        rw [← (hmain.2 2 g st h).1 n]
        simp only [h] at hnodes
        rw [hnodes, List.mem_singleton, Set.mem_singleton_iff]
      refine ⟨hentries, rfl, hreached, (hmain.1.1 ⟨2, g, st, h⟩).2 _ ?_⟩
      rw [hreached]
      rfl

end Builder

end CallGraphs
