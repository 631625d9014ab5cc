import CallGraphs.Proofs.Fitting

/-!
# CallGraphs.Proofs.Budget

How long a construction on demand can take.  Each node that is processed came
out of the worklist, once, and was let into the graph by then.  So no more
nodes are processed than the limit allows, however many are reached; and if
nothing is generic, no more than there are variants of declared names.

* `continues_or_enters` — a node is refused, or processed within the limit;
* `Entered.drain` — the nodes that were processed after any number of looks;
* `drain_ends` — when a construction has ended.
-/

namespace CallGraphs

namespace Program

/-- The variants of the declared names, without type arguments. -/
def plainNodes (program : Program) : List Node :=
  (program.callables.map (·.name)).eraseDups.flatMap fun name =>
    Variant.all.map fun kind => ⟨name, kind, none⟩

/-- There are four for each name. -/
theorem length_plainNodes (program : Program) :
    program.plainNodes.length = 4 * program.nameCount := by
  simp [plainNodes, nameCount, Variant.all, List.length_flatMap, Nat.mul_comm]

/-- A node without type arguments is one of them if its callable is found. -/
theorem mem_plainNodes {program : Program} {n : Node} {c : Callable}
    (hc : program.find? n.callable = some c) (hn : n.typeArguments = none) :
    n ∈ program.plainNodes := by
  have hname : n.callable ∈ (program.callables.map (·.name)).eraseDups :=
    List.mem_eraseDups.2 (List.mem_map.2 ⟨c, mem_of_find? hc, name_of_find? hc⟩)
  refine List.mem_flatMap.2 ⟨n.callable, hname, List.mem_map.2 ⟨n.kind, n.kind.mem_all, ?_⟩⟩
  rw [← hn]

end Program

namespace Builder

variable {b : Builder} {find? : QualifiedName → Option Callable} {program : Program}
  {entryPoints : List QualifiedName} {p q : Progress} {n : Node} {ns : List Node} {looks : Nat}

/-! ## nodes -/

/-- A construction that goes on within a walk: nothing is counted or taken out
of the worklist, and the graph only grows. -/
structure Continues (p q : Progress) : Prop where
  processed : q.processed = p.processed
  resolved : q.worklist.resolved = p.worklist.resolved
  nodes : p.graph.nodes <+: q.graph.nodes

theorem Continues.refl (p : Progress) : Continues p p := ⟨rfl, rfl, List.prefix_rfl⟩

theorem Continues.trans {r : Progress} (h : Continues p q) (h' : Continues q r) :
    Continues p r where
  processed := h'.processed.trans h.processed
  resolved := h'.resolved.trans h.resolved
  nodes := h.nodes.trans h'.nodes

/-- Recording goes on from where it began. -/
theorem Continues.records (traceEdges : Bool) (start : Progress) :
    Records traceEdges Continues (Continues start) (fun _ => True) where
  store {p e} _ _ := ⟨rfl, rfl, p.graph.prefix_addDependency e⟩
  offer {p e} _ := ⟨rfl, p.worklist.resolved_offer e.callee, List.prefix_rfl⟩
  note := ⟨rfl, rfl, List.prefix_rfl⟩
  keeps hstep hgoes := hgoes.trans hstep

/-- After it is counted, processing a specialization goes on. -/
theorem continues_process (b : Builder) (find? : QualifiedName → Option Callable) (n : Node)
    (resolutions : Substitution) (s : Specialization) (p : Progress) :
    Continues { p with processed := p.processed + 1 }
      (Build.after (b.process find? n resolutions s) p) := by
  have hrecords := Continues.records b.options.traceEdges { p with processed := p.processed + 1 }
  obtain ⟨events, hwalk⟩ : ∃ events, Relation.ReflTransGen Continues
      { p with processed := p.processed + 1, events := events }
      (Build.after (b.process find? n resolutions s) p) :=
    hrecords.process (fun _ => ⟨rfl, rfl, List.prefix_rfl⟩) fun _ _ => trivial
  exact hrecords.keeps_reflTransGen hwalk ⟨rfl, rfl, List.prefix_rfl⟩

/-- A node is processed: it stands for a specialization, it is let into the
graph, and then it is counted and walked. -/
structure Enters (b : Builder) (find? : QualifiedName → Option Callable) (n : Node)
    (p q : Progress) : Prop where
  stands : ∃ s resolutions, n.StandsFor find? s resolutions
  within : ∀ limit, b.options.nodeLimit = some limit → (p.graph.addNode n).nodeCount ≤ limit
  processed : q.processed = p.processed + 1
  resolved : q.worklist.resolved = p.worklist.resolved
  nodes : (p.graph.addNode n).nodes <+: q.graph.nodes

/-- A node is refused before it is counted, or it is processed within the
limit, whether or not its walk fails. -/
theorem continues_or_enters (b : Builder) (find? : QualifiedName → Option Callable) (n : Node)
    (p : Progress) :
    (∃ e q, b.processNode find? n p = .error e q ∧ Continues p q) ∨
      b.Enters find? n p (Build.after (b.processNode find? n) p) := by
  rw [Build.after]
  obtain ⟨e, -, herror⟩ | ⟨s, resolutions, hs, hnode⟩ := b.processNode_cases find? n p
  · exact .inl ⟨e, p, herror, .refl p⟩
  · rw [hnode]
    obtain ⟨hok, hwithin⟩ | ⟨limit, hbeyond⟩ :=
      Build.checkLimit_cases b.options { p with graph := p.graph.addNode n }
    · have hwalk := continues_process b find? n resolutions s
        { p with graph := p.graph.addNode n }
      rw [hok]
      exact .inr ⟨⟨s, resolutions, hs⟩, hwithin, hwalk.processed, hwalk.resolved, hwalk.nodes⟩
    · rw [hbeyond]
      exact .inl ⟨_, _, rfl, rfl, rfl, p.graph.prefix_addNode n⟩

/-! ## looks -/

/-- The nodes that were processed so far: distinct nodes of the graph that
came out of the worklist and stand for a specialization, as many as were
counted and no more than the limit allows. -/
structure Entered (b : Builder) (find? : QualifiedName → Option Callable) (p : Progress)
    (ns : List Node) : Prop where
  nodup : ns.Nodup
  resolved : ∀ n ∈ ns, n ∈ p.worklist.resolved
  nodes : ∀ n ∈ ns, n ∈ p.graph.nodes
  stands : ∀ n ∈ ns, ∃ s resolutions, n.StandsFor find? s resolutions
  processed : p.processed = ns.length
  within : ∀ limit, b.options.nodeLimit = some limit → ns.length ≤ limit

/-- No node was processed in the beginning. -/
theorem Entered.initial (b : Builder) (find? : QualifiedName → Option Callable)
    (w : Worklist) : b.Entered find? (.initial w) [] where
  nodup := List.nodup_nil
  resolved _ h := absurd h List.not_mem_nil
  nodes _ h := absurd h List.not_mem_nil
  stands _ h := absurd h List.not_mem_nil
  processed := rfl
  within _ _ := Nat.zero_le _

/-- The processed nodes stay so. -/
theorem Entered.continues (h : b.Entered find? p ns) (hgoes : Continues p q) :
    b.Entered find? q ns where
  nodup := h.nodup
  resolved n hn := hgoes.resolved ▸ h.resolved n hn
  nodes n hn := hgoes.nodes.subset (h.nodes n hn)
  stands := h.stands
  processed := hgoes.processed.trans h.processed
  within := h.within

/-- Taking a node out does not change which ones were processed. -/
theorem Entered.take (h : b.Entered find? p ns) {w : Worklist}
    (hpop : p.worklist.pop = some (n, w)) : b.Entered find? { p with worklist := w } ns where
  nodup := h.nodup
  resolved x hx := by
    rw [(Worklist.pop_eq_some hpop).2.1]
    exact List.mem_cons_of_mem n (h.resolved x hx)
  nodes := h.nodes
  stands := h.stands
  processed := h.processed
  within := h.within

/-- A node that comes out and is processed is one more.  The limit is watched
when it is in the graph along with the others. -/
theorem Entered.enters (h : b.Entered find? p ns) {w : Worklist}
    (hpop : p.worklist.pop = some (n, w)) (henters : b.Enters find? n { p with worklist := w } q) :
    b.Entered find? q (n :: ns) := by
  obtain ⟨hpending, hresolved, -⟩ := Worklist.pop_eq_some hpop
  have hfresh : n ∉ ns := by
    intro hn
    have hnodup := p.worklist.nodup
    rw [hpending, List.cons_append] at hnodup
    exact (List.nodup_cons.1 hnodup).1 (List.mem_append_right _ (h.resolved n hn))
  have hnodup : (n :: ns).Nodup := List.nodup_cons.2 ⟨hfresh, h.nodup⟩
  have hnodes : ∀ x ∈ n :: ns, x ∈ (p.graph.addNode n).nodes := by
    intro x hx
    obtain rfl | hx := List.mem_cons.1 hx
    · exact CallGraph.mem_nodes_addNode.2 (.inr rfl)
    · exact CallGraph.mem_nodes_addNode.2 (.inl (h.nodes x hx))
  constructor
  case nodup => exact hnodup
  case resolved =>
    intro x hx
    rw [henters.resolved, hresolved]
    obtain rfl | hx := List.mem_cons.1 hx
    · exact List.mem_cons_self
    · exact List.mem_cons_of_mem n (h.resolved x hx)
  case nodes => exact fun x hx => henters.nodes.subset (hnodes x hx)
  case stands => exact List.forall_mem_cons.2 ⟨henters.stands, h.stands⟩
  case processed => rw [henters.processed, h.processed, List.length_cons]
  case within =>
    intro limit hlimit
    exact ((List.subperm_of_subset hnodup hnodes).length_le).trans (henters.within limit hlimit)

/-- What is known after a number of looks: which nodes were processed, and if
the construction is unfinished, that it processed one with every look. -/
theorem Entered.drain (h : b.Entered find? p ns) (looks : Nat) :
    ∃ ms, b.Entered find? (Build.after (b.drain find? looks) p) ms ∧
      ∀ q, b.drain find? looks p = .ok false q → ms.length = ns.length + looks := by
  -- by induction on the looks: `enters` carries the account over the first one
  induction looks generalizing p ns with
  | zero => exact ⟨ns, h, fun _ _ => rfl⟩
  | succ looks ih =>
      rw [Build.after, drain_step]
      cases hpop : p.worklist.pop with
      | none => exact ⟨ns, h, fun q hq => by cases hq⟩
      | some next =>
          obtain ⟨n, w⟩ := next
          dsimp only
          obtain ⟨e, q, herror, hgoes⟩ | henters :=
            continues_or_enters b find? n { p with worklist := w }
          · rw [herror]
            exact ⟨ns, (h.take hpop).continues hgoes, fun q hq => by cases hq⟩
          · have hone := h.enters hpop henters
            rw [Build.after] at hone
            cases hn : b.processNode find? n { p with worklist := w } with
            | error e q =>
                rw [hn] at hone
                exact ⟨n :: ns, hone, fun q hq => by cases hq⟩
            | ok u q =>
                rw [hn] at hone
                obtain ⟨ms, hms, hlength⟩ := ih hone
                refine ⟨ms, hms, fun q' hq' => ?_⟩
                rw [hlength q' hq', List.length_cons, Nat.add_right_comm, Nat.add_assoc]

/-! ## constructions -/

/-- A construction on demand processes no more than so many nodes, has ended
after one look more than these, and does not go on from there. -/
structure EndsWithin (b : Builder) (find? : QualifiedName → Option Callable) (p : Progress)
    (walks : Nat) : Prop where
  processed : ∀ looks, (Build.after (b.drain find? looks) p).processed ≤ walks
  ends : ∀ q, b.drain find? (walks + 1) p ≠ .ok false q
  stays : ∀ looks, walks < looks → b.drain find? looks p = b.drain find? (walks + 1) p

/-- It does if no more nodes can be processed. -/
theorem Entered.endsWithin (h : b.Entered find? p []) {walks : Nat}
    (hbound : ∀ looks ms, b.Entered find? (Build.after (b.drain find? looks) p) ms →
      ms.length ≤ walks) : b.EndsWithin find? p walks := by
  have hends (q : Progress) : b.drain find? (walks + 1) p ≠ .ok false q := by
    intro hq
    obtain ⟨ms, hms, hlength⟩ := h.drain (walks + 1)
    have hle := hbound (walks + 1) ms hms
    have heq := hlength q hq
    simp only [List.length_nil] at heq
    omega
  constructor
  case processed =>
    intro looks
    obtain ⟨ms, hms, -⟩ := h.drain looks
    rw [hms.processed]
    exact hbound looks ms hms
  case ends => exact hends
  case stays =>
    intro looks hlooks
    obtain ⟨more, rfl⟩ := Nat.exists_eq_add_of_le hlooks
    rw [drain_add]
    cases hrun : b.drain find? (walks + 1) p with
    | error e q => rfl
    | ok done q =>
        cases done with
        | true => rfl
        | false => exact absurd hrun (hends q)

/-- With a limit no more nodes can be processed than it allows. -/
theorem endsWithin_limit {limit : Nat} (hlimit : b.options.nodeLimit = some limit)
    (find? : QualifiedName → Option Callable) (w : Worklist) :
    b.EndsWithin find? (.initial w) limit :=
  (Entered.initial b find? w).endsWithin fun _ _ hms => hms.within limit hlimit

/-- If nothing is generic, a node that was processed is a variant of a declared
name, without type arguments. -/
theorem Entered.mem_plainNodes (h : b.Entered program.find? q ns)
    (hplain : ∀ c ∈ program.callables, c.typeParameters = [])
    (hpasses : b.Passes program.find? (.initial (seeds entryPoints)) q) (hn : n ∈ ns) :
    n ∈ program.plainNodes := by
  obtain ⟨s, resolutions, c, hc, -⟩ := h.stands n hn
  have hdeclared : c ∈ program.callables := Program.mem_of_find? hc
  have harguments : n.typeArguments = none := by
    obtain ⟨name, -, rfl⟩ | ⟨c', hc', hgeneric, -⟩ :=
      (fits_of_passes hpasses).accepted n (List.mem_append_right _ (h.resolved n hn))
    · rfl
    · obtain rfl : c' = c := Option.some.inj (hc'.symm.trans hc)
      have hnot : ¬ c'.isGeneric = true := by simp [Callable.isGeneric, hplain c' hdeclared]
      exact Option.not_isSome_iff_eq_none.1 fun h => hnot (hgeneric.1 h)
  exact Program.mem_plainNodes hc harguments

/-- Construction on demand ends within its budget, with any combiner.  With a
limit it processes no more specializations than that allows, even if
infinitely many nodes are reached.  If no callable has type parameters it
processes no more than four for each declared name.  After one look more than
that it has come to its end. -/
theorem drain_ends (b : Builder) (program : Program) (entryPoints : List QualifiedName) :
    let start : Progress := .initial (seeds entryPoints)
    (∀ limit, b.options.nodeLimit = some limit → b.EndsWithin program.find? start limit) ∧
    ((∀ c ∈ program.callables, c.typeParameters = []) →
      b.EndsWithin program.find? start (4 * program.nameCount)) := by
  intro start
  refine ⟨fun limit hlimit => endsWithin_limit hlimit program.find? _, fun hplain => ?_⟩
  refine (Entered.initial b program.find? _).endsWithin fun looks ms hms => ?_
  have hpasses := passes_drain b program.find? looks start
  have hsubset : ms ⊆ program.plainNodes := fun n hn => hms.mem_plainNodes hplain hpasses hn
  calc ms.length ≤ program.plainNodes.length :=
        (List.subperm_of_subset hms.nodup hsubset).length_le
    _ = 4 * program.nameCount := program.length_plainNodes

/-- Two operations that instantiate each other at ever larger types reach
infinitely many nodes, and still every limit ends their construction. -/
theorem drain_ends_mutual_recursion :
    let program := MutualRecursion.program .array
    let entryPoints := [MutualRecursion.operationName "Main"]
    {n | standard.Reached program.find? entryPoints n}.Infinite ∧
    ∀ limit, (⟨Combiner.compose, ⟨some limit, false⟩⟩ : Builder).EndsWithin program.find?
      (.initial (seeds entryPoints)) limit :=
  ⟨MutualRecursion.infinite_reached, fun limit =>
    (drain_ends ⟨Combiner.compose, ⟨some limit, false⟩⟩ _ _).1 limit rfl⟩

end Builder

end CallGraphs
