import CallGraphs.Proofs.Search
import Mathlib.Order.Lattice.Nat

/-!
# CallGraphs.Proofs.Distance

The order in which the transitive queries list nodes.  The distance of a node
is the least number of edges, at least one, on a walk to it, so the distance
from a node to itself is the length of its shortest cycle.  What is found on
one level has one distance, and what is found later is not nearer.

* `Level.succ` — a level and the nodes still unseen, by their distance;
* `pairwise_beyond` — the nodes found are sorted by distance;
* `shortest_distance`, `exists_shortest_cycle` — distances as lengths of walks and cycles;
* `queries_sorted` — both queries, on the graph, with a queue and in memory.
-/

namespace CallGraphs

namespace CallGraph

/-! ## levels by distance -/

/-- Nodes that are reached in a given number of steps. -/
inductive ReachedIn (next : Node → List Node) (n : Node) : Nat → Node → Prop
  | start : ReachedIn next n 0 n
  | step {k : Nat} {m l : Node} : ReachedIn next n k m → l ∈ next m → ReachedIn next n (k + 1) l

/-- One node is not further away than another if it is reached in at most as
many steps, counting only steps away from the start. -/
def NotFurther (next : Node → List Node) (n x y : Node) : Prop :=
  ∀ j, 0 < j → ReachedIn next n j y → ∃ i, 0 < i ∧ i ≤ j ∧ ReachedIn next n i x

/-- A search from `n` after `k` levels: those at distance `k` make up the level,
and those further away are unseen.  The start is at distance zero here, as long
as the search has not come back to it. -/
structure Level (next : Node → List Node) (n : Node) (k : Nat) (unseen level : List Node) :
    Prop where
  nodup : unseen.Nodup
  reached : ∀ x ∈ level, ReachedIn next n k x
  complete : ∀ x, ReachedIn next n k x → x ∈ level ∨ ∃ j, 0 < j ∧ j < k ∧ ReachedIn next n j x
  fresh : ∀ x ∈ unseen, ∀ j, 0 < j → ReachedIn next n j x → k < j
  seen : ∀ x m, x ∈ next m → x ∉ unseen → ∃ j, 0 < j ∧ j ≤ k ∧ ReachedIn next n j x

variable {next : Node → List Node} {unseen level : List Node} {n x : Node} {k : Nat}

theorem Level.initial {nodes : List Node} (hnodup : nodes.Nodup)
    (hnext : ∀ n m, m ∈ next n → m ∈ nodes) (n : Node) : Level next n 0 nodes [n] where
  nodup := hnodup
  reached x hx := by
    obtain rfl := List.mem_singleton.1 hx
    exact .start
  complete x hx := by
    cases hx
    exact .inl (List.mem_singleton_self n)
  fresh _ _ _ hj _ := hj
  seen x m hx hunseen := absurd (hnext m x hx) hunseen

/-- What a level finds is one step further away. -/
theorem Level.reached_of_found (h : Level next n k unseen level)
    (hx : x ∈ (discover unseen (ahead next level)).1) : ReachedIn next n (k + 1) x := by
  obtain ⟨m, hm, hxm⟩ := List.mem_flatMap.1 (mem_discover.1 hx).1
  exact .step (h.reached m hm) hxm

/-- An unseen node that is one step further away is found. -/
theorem Level.found_of_reached (h : Level next n k unseen level) (hunseen : x ∈ unseen)
    (hx : ReachedIn next n (k + 1) x) : x ∈ (discover unseen (ahead next level)).1 := by
  cases hx with
  | step hm hxm =>
      obtain hlevel | ⟨j, -, hjk, hj⟩ := h.complete _ hm
      · exact mem_discover.2 ⟨List.mem_flatMap.2 ⟨_, hlevel, hxm⟩, hunseen⟩
      · have := h.fresh x hunseen (j + 1) j.succ_pos (.step hj hxm)
        omega

/-- The next level is one step further away. -/
theorem Level.succ (h : Level next n k unseen level) :
    Level next n (k + 1) (discover unseen (ahead next level)).2
      (discover unseen (ahead next level)).1 := by
  have hperm := discover_perm unseen (ahead next level)
  obtain ⟨-, hrest, hdisjoint⟩ := List.nodup_append.1 (hperm.nodup_iff.2 h.nodup)
  have hunseen {x : Node} (hx : x ∈ (discover unseen (ahead next level)).2) : x ∈ unseen :=
    hperm.mem_iff.1 (List.mem_append_right _ hx)
  refine ⟨hrest, fun x => h.reached_of_found, fun x hx => ?_, fun x hx j hj hreached => ?_,
    fun x m hx hnot => ?_⟩
  · by_cases hmem : x ∈ unseen
    · exact .inl (h.found_of_reached hmem hx)
    · cases hx with
      | step hm hxm =>
          obtain ⟨j, hj, hjk, hreached⟩ := h.seen x _ hxm hmem
          exact .inr ⟨j, hj, Nat.lt_succ_of_le hjk, hreached⟩
  · -- one that is left over is not reached by the step that this level takes
    have hlt := h.fresh x (hunseen hx) j hj hreached
    obtain rfl | hlt := Nat.eq_or_lt_of_le (Nat.succ_le_of_lt hlt)
    · exact absurd rfl (hdisjoint x (h.found_of_reached (hunseen hx) hreached) x hx)
    · exact hlt
  · by_cases hmem : x ∈ unseen
    · have hfound := (List.mem_append.1 (hperm.mem_iff.2 hmem)).resolve_right hnot
      exact ⟨k + 1, k.succ_pos, Nat.le_refl _, h.reached_of_found hfound⟩
    · obtain ⟨j, hj, hjk, hreached⟩ := h.seen x m hx hmem
      exact ⟨j, hj, Nat.le_succ_of_le hjk, hreached⟩

/-- The nodes found beyond a level are sorted by distance. -/
theorem Level.pairwise_beyond (h : Level next n k unseen level) :
    (beyond next unseen level).Pairwise (NotFurther next n) := by
  induction unseen, level using levels_induction next generalizing k with
  | nil unseen => simp
  | level unseen level ih =>
      have hperm := discover_perm unseen (ahead next level)
      -- a node that is found now is as near as any unseen node can be
      have hnear {x y : Node} (hx : x ∈ (discover unseen (ahead next level)).1)
          (hy : y ∈ unseen) : NotFurther next n x y := fun j hj hreached =>
        ⟨k + 1, k.succ_pos, h.fresh y hy j hj hreached, h.reached_of_found hx⟩
      rw [beyond_eq, List.pairwise_append]
      refine ⟨List.pairwise_of_forall_mem_list fun x hx y hy => hnear hx ?_, ih h.succ,
        fun x hx y hy => hnear hx ?_⟩
      · exact hperm.mem_iff.1 (List.mem_append_left _ hy)
      · exact hperm.mem_iff.1 (List.mem_append_right _ ((beyond_subperm next _ _).subset hy))

/-! ## walks -/

/-- A walk: edges each of which leaves from where the one before it arrives. -/
def IsWalk (g : CallGraph) : Node → List Edge → Node → Prop
  | n, [], m => n = m
  | n, e :: es, m => e ∈ g.edges ∧ e.caller = n ∧ g.IsWalk e.callee es m

/-- A cycle: a walk from a node back to it that leaves no node twice. -/
def IsCycle (g : CallGraph) (n : Node) (es : List Edge) : Prop :=
  es ≠ [] ∧ g.IsWalk n es n ∧ (es.map (·.caller)).Nodup

/-- Some walk from a node to another has `k` edges, at least one, and none has
fewer. -/
def Shortest (g : CallGraph) (n m : Node) (k : Nat) : Prop :=
  (∃ es, es ≠ [] ∧ g.IsWalk n es m ∧ es.length = k) ∧
    ∀ es, es ≠ [] → g.IsWalk n es m → k ≤ es.length

/-- The least number of edges, at least one, on a walk from a node to another. -/
noncomputable def distance (g : CallGraph) (n m : Node) : Nat :=
  sInf {k | 0 < k ∧ ∃ es, g.IsWalk n es m ∧ es.length = k}

variable {g : CallGraph} {m : Node} {es es' : List Edge}

theorem isWalk_append :
    g.IsWalk n (es ++ es') m ↔ ∃ x, g.IsWalk n es x ∧ g.IsWalk x es' m := by
  induction es generalizing n with
  | nil => simp [IsWalk]
  | cons e es ih => simp [IsWalk, ih, and_assoc]

/-- A walk goes on along an edge that leaves from where it arrives. -/
theorem IsWalk.concat {e : Edge} (h : g.IsWalk n es e.caller) (he : e ∈ g.edges) :
    g.IsWalk n (es ++ [e]) e.callee :=
  isWalk_append.2 ⟨e.caller, h, he, rfl, rfl⟩

/-- A chain of edges is a walk. -/
theorem exists_isWalk_of_leads (h : g.Leads n m) : ∃ es, es ≠ [] ∧ g.IsWalk n es m := by
  induction h with
  | single hr =>
      obtain ⟨r, hr⟩ := hr
      exact ⟨[⟨n, _, r⟩], List.cons_ne_nil _ _, hr, rfl, rfl⟩
  | tail _ hr ih =>
      obtain ⟨r, hr⟩ := hr
      obtain ⟨es, -, hes⟩ := ih
      exact ⟨es ++ [⟨_, _, r⟩], by simp, hes.concat hr⟩

/-- A walk may be cut before any of its edges. -/
theorem IsWalk.cut (h : g.IsWalk n es m) {i : Nat} (hi : i < es.length) :
    g.IsWalk n (es.take i) es[i].caller ∧ g.IsWalk es[i].caller (es.drop i) m := by
  rw [← List.take_append_drop i es, isWalk_append] at h
  obtain ⟨x, htake, hdrop⟩ := h
  rw [List.drop_eq_getElem_cons hi] at hdrop ⊢
  obtain rfl := hdrop.2.1
  exact ⟨htake, hdrop⟩

/-- A shortest walk leaves no node twice. -/
theorem nodup_of_shortest (h : g.IsWalk n es m) (hleast : g.Shortest n m es.length) :
    (es.map (·.caller)).Nodup := by
  rw [List.nodup_iff_pairwise_ne, List.pairwise_iff_getElem]
  intro i j hi hj hij hsame
  rw [List.length_map] at hi hj
  rw [List.getElem_map, List.getElem_map] at hsame
  -- a walk that leaves a node twice may skip what lies between
  have hskip : g.IsWalk n (es.take i ++ es.drop j) m :=
    isWalk_append.2 ⟨es[i].caller, (h.cut hi).1, hsame ▸ (h.cut hj).2⟩
  have hlength := hleast.2 _ (by simp [hj]) hskip
  simp only [List.length_append, List.length_take, List.length_drop] at hlength
  omega

/-- The nodes that are reached along edges that leave. -/
theorem reachedIn_callees_iff :
    ReachedIn g.callees n k m ↔ ∃ es, g.IsWalk n es m ∧ es.length = k := by
  constructor
  · intro h
    induction h with
    | start => exact ⟨[], rfl, rfl⟩
    | step _ hl ih =>
        obtain ⟨es, hes, rfl⟩ := ih
        obtain ⟨r, hr⟩ := mem_callees_iff.1 hl
        exact ⟨es ++ [⟨_, _, r⟩], hes.concat hr, by simp⟩
  · rintro ⟨es, hes, rfl⟩
    induction es using List.reverseRecOn generalizing m with
    | nil =>
        obtain rfl := hes
        exact .start
    | append_singleton es e ih =>
        obtain ⟨x, hx, he, rfl, rfl⟩ := isWalk_append.1 hes
        rw [List.length_append]
        exact .step (ih hx) (mem_callees.2 ⟨e, he, rfl, rfl⟩)

/-- The nodes that are reached along edges that enter, against their
direction. -/
theorem reachedIn_callers_iff :
    ReachedIn g.callers n k m ↔ ∃ es, g.IsWalk m es n ∧ es.length = k := by
  constructor
  · intro h
    induction h with
    | start => exact ⟨[], rfl, rfl⟩
    | step _ hl ih =>
        obtain ⟨es, hes, rfl⟩ := ih
        obtain ⟨r, hr⟩ := mem_callers_iff.1 hl
        exact ⟨⟨_, _, r⟩ :: es, ⟨hr, rfl, hes⟩, rfl⟩
  · rintro ⟨es, hes, rfl⟩
    induction es generalizing m with
    | nil =>
        obtain rfl := hes
        exact .start
    | cons e es ih =>
        obtain ⟨he, rfl, hes⟩ := hes
        exact .step (ih hes) (mem_callers.2 ⟨e, he, rfl, rfl⟩)

/-! ## distances -/

/-- The distance to a node that is led to is that of a shortest walk. -/
theorem shortest_distance (h : g.Leads n m) : g.Shortest n m (g.distance n m) := by
  have hnonempty : {k | 0 < k ∧ ∃ es, g.IsWalk n es m ∧ es.length = k}.Nonempty := by
    obtain ⟨es, hne, hes⟩ := exists_isWalk_of_leads h
    exact ⟨es.length, List.length_pos_iff.2 hne, es, hes, rfl⟩
  constructor
  · obtain ⟨hpos, es, hes, hlength⟩ := Nat.sInf_mem hnonempty
    refine ⟨es, ?_, hes, hlength⟩
    rintro rfl
    rw [← hlength] at hpos
    exact Nat.lt_irrefl 0 hpos
  · exact fun es hne hes => Nat.sInf_le ⟨List.length_pos_iff.2 hne, es, hes, rfl⟩

/-- The distance to a node on a cycle from itself is the length of its shortest
cycle. -/
theorem exists_shortest_cycle (h : g.Leads n n) :
    (∃ es, g.IsCycle n es ∧ es.length = g.distance n n) ∧
      ∀ es, g.IsCycle n es → g.distance n n ≤ es.length := by
  have hshortest := shortest_distance h
  obtain ⟨es, hne, hes, hlength⟩ := hshortest.1
  have hnodup := nodup_of_shortest hes (hlength ▸ hshortest)
  exact ⟨⟨es, ⟨hne, hes, hnodup⟩, hlength⟩, fun es h => hshortest.2 es h.1 h.2.1⟩

/-- A node that is not further away has no greater distance. -/
theorem sInf_le_of_notFurther {x y : Node} {X Y : Nat → Prop}
    (hX : ∀ k, ReachedIn next n k x ↔ X k) (hY : ∀ k, ReachedIn next n k y ↔ Y k)
    (hy : ∃ k, 0 < k ∧ Y k) (h : NotFurther next n x y) :
    sInf {k | 0 < k ∧ X k} ≤ sInf {k | 0 < k ∧ Y k} := by
  obtain ⟨hpos, hreached⟩ := Nat.sInf_mem hy
  obtain ⟨i, hi, hle, hx⟩ := h _ hpos ((hY _).2 hreached)
  have hmem : i ∈ {k | 0 < k ∧ X k} := ⟨hi, (hX i).1 hx⟩
  exact (Nat.sInf_le hmem).trans hle

theorem sorted_allDependencies (g : CallGraph) (n : Node) :
    (g.allDependencies n).Pairwise fun x y => g.distance n x ≤ g.distance n y := by
  have hlevel : Level g.callees n 0 g.nodes [n] :=
    .initial g.nodes_nodup (fun _ _ => mem_nodes_of_mem_callees) n
  refine hlevel.pairwise_beyond.imp_of_mem fun _ hy h =>
    sInf_le_of_notFurther (fun _ => reachedIn_callees_iff) (fun _ => reachedIn_callees_iff) ?_ h
  obtain ⟨es, hne, hes⟩ := exists_isWalk_of_leads (mem_allDependencies_iff.1 hy)
  exact ⟨es.length, List.length_pos_iff.2 hne, es, hes, rfl⟩

theorem sorted_allDependents (g : CallGraph) (n : Node) :
    (g.allDependents n).Pairwise fun x y => g.distance x n ≤ g.distance y n := by
  have hlevel : Level g.callers n 0 g.nodes [n] :=
    .initial g.nodes_nodup (fun _ _ => mem_nodes_of_mem_callers) n
  refine hlevel.pairwise_beyond.imp_of_mem fun _ hy h =>
    sInf_le_of_notFurther (fun _ => reachedIn_callers_iff) (fun _ => reachedIn_callers_iff) ?_ h
  obtain ⟨es, hne, hes⟩ := exists_isWalk_of_leads (mem_allDependents_iff.1 hy)
  exact ⟨es.length, List.length_pos_iff.2 hne, es, hes, rfl⟩

end CallGraph

/-! ## the queue -/

namespace Search

variable {α : Type} [DecidableEq α] {next : α → List α}

theorem prefix_foldl_meet (candidates : List α) (s : Search α) :
    s.found <+: (candidates.foldl meet s).found := by
  induction candidates generalizing s with
  | nil => exact List.prefix_rfl
  | cons a candidates ih =>
      have hmeet : s.found <+: (s.meet a).found := by
        rw [meet]
        split
        · exact List.prefix_rfl
        · exact List.prefix_append _ _
      exact hmeet.trans (ih _)

/-- What is found stays found, in its order. -/
theorem prefix_look (next : α → List α) (s : Search α) : s.found <+: (s.look next).found := by
  obtain ⟨found, queue⟩ := s
  cases queue with
  | nil => exact List.prefix_rfl
  | cons a queue => exact prefix_foldl_meet (next a) ⟨found, queue⟩

theorem prefix_iterate_look (next : α → List α) (more : Nat) (s : Search α) :
    s.found <+: ((look next)^[more] s).found := by
  induction more generalizing s with
  | zero => exact List.prefix_rfl
  | succ more ih => exact (prefix_look next s).trans (ih _)

/-- What a queue has found at any time are the first of the nodes that a search
finds. -/
theorem prefix_beyond {next : Node → List Node} {nodes : List Node} (hnodup : nodes.Nodup)
    (hnext : ∀ n m, m ∈ next n → m ∈ nodes) (n : Node) (looks : Nat) :
    ((look next)^[looks] (start n)).found <+: CallGraph.beyond next nodes [n] := by
  have hend := look_start hnodup hnext n (k := nodes.length + 1 + looks) (by omega)
  rw [Function.iterate_add_apply] at hend
  have hprefix := prefix_iterate_look next (nodes.length + 1) ((look next)^[looks] (start n))
  rwa [hend] at hprefix

end Search

/-! ## transitive queries -/

namespace CallGraph

/-- Transitive queries list nodes by distance.  Those listed are sorted by their
distance from the node in question, or to it, which is the length of a shortest
walk of one or more edges; that of the node itself, if it is listed, is the
length of its shortest cycle.  A queue finds the nodes in this order however
far it has come, and so does the search in memory after every sequence of
insertions that leaves the graph. -/
theorem queries_sorted (g : CallGraph) (n : Node) :
    ((g.allDependencies n).Pairwise fun x y => g.distance n x ≤ g.distance n y) ∧
    ((g.allDependents n).Pairwise fun x y => g.distance x n ≤ g.distance y n) ∧
    (∀ m ∈ g.allDependencies n, g.Shortest n m (g.distance n m)) ∧
    (∀ m ∈ g.allDependents n, g.Shortest m n (g.distance m n)) ∧
    (n ∈ g.allDependencies n ∨ n ∈ g.allDependents n →
      (∃ es, g.IsCycle n es ∧ es.length = g.distance n n) ∧
        ∀ es, g.IsCycle n es → g.distance n n ≤ es.length) ∧
    (∀ looks,
      (((Search.look g.callees)^[looks] (.start n)).found.Pairwise fun x y =>
        g.distance n x ≤ g.distance n y) ∧
      ((Search.look g.callers)^[looks] (.start n)).found.Pairwise fun x y =>
        g.distance x n ≤ g.distance y n) ∧
    ∀ is, ofInsertions is = g →
      (((IndexedGraph.ofInsertions is).allDependencies n).Pairwise fun x y =>
        g.distance n x ≤ g.distance n y) ∧
      ((IndexedGraph.ofInsertions is).allDependents n).Pairwise fun x y =>
        g.distance x n ≤ g.distance y n := by
  have hdependencies := sorted_allDependencies g n
  have hdependents := sorted_allDependents g n
  refine ⟨hdependencies, hdependents, fun m hm => shortest_distance ?_,
    fun m hm => shortest_distance ?_, fun hn => exists_shortest_cycle ?_,
    fun looks => ⟨?_, ?_⟩, fun is his => ?_⟩
  · exact mem_allDependencies_iff.1 hm
  · exact mem_allDependents_iff.1 hm
  · exact hn.elim mem_allDependencies_iff.1 mem_allDependents_iff.1
  · exact hdependencies.sublist
      (Search.prefix_beyond g.nodes_nodup (fun _ _ => mem_nodes_of_mem_callees) n looks).sublist
  · exact hdependents.sublist
      (Search.prefix_beyond g.nodes_nodup (fun _ _ => mem_nodes_of_mem_callers) n looks).sublist
  · subst his
    have hkeeps := IndexedGraph.keeps_ofInsertions is
    rw [hkeeps.allDependencies, hkeeps.allDependents]
    exact ⟨hdependencies, hdependents⟩

end CallGraph

end CallGraphs
