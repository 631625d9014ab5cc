import CallGraphs.Graph.Search
import CallGraphs.Proofs.Indexing
import Mathlib.Data.List.Perm.Subperm
import Mathlib.Logic.Relation

/-!
# CallGraphs.Proofs.Search

What the transitive queries list.  A search finds each node that is reached by
one or more edges, once, and nothing else; the start is no exception.  Searching
level by level finds the nodes in the order in which a queue does.

* `discover_perm`, `beyond_subperm` — what is found was unseen, and is found once;
* `mem_beyond_iff` — it is what the start leads to;
* `Search.look_start` — a queue finds the same;
* `Search.renamed_look`, `Keeps.search` — so does one of numbers, in memory;
* `queries_exact` — both queries, on every graph.
-/

namespace CallGraphs

namespace CallGraph

variable {next : Node → List Node} {unseen level : List Node} {n m : Node}

/-! ## one level -/

/-- The nodes found and those still unseen are what was unseen. -/
theorem discover_perm (unseen candidates : List Node) :
    ((discover unseen candidates).1 ++ (discover unseen candidates).2).Perm unseen := by
  induction candidates generalizing unseen with
  | nil => exact .refl _
  | cons n ns ih =>
      rw [discover]
      split
      next h => exact ((ih (unseen.erase n)).cons n).trans (List.perm_cons_erase h).symm
      next => exact ih unseen

/-- So found and unseen nodes stay the nodes of the graph. -/
theorem perm_discover {found nodes : List Node} (h : (found ++ unseen).Perm nodes)
    (candidates : List Node) :
    (found ++ (discover unseen candidates).1 ++ (discover unseen candidates).2).Perm nodes := by
  rw [List.append_assoc]
  exact ((discover_perm unseen candidates).append_left found).trans h

theorem discover_append (unseen xs ys : List Node) :
    discover unseen (xs ++ ys) =
      ((discover unseen xs).1 ++ (discover (discover unseen xs).2 ys).1,
        (discover (discover unseen xs).2 ys).2) := by
  induction xs generalizing unseen with
  | nil => rfl
  | cons n ns ih =>
      rw [List.cons_append, discover, discover]
      split
      next => rw [ih, List.cons_append]
      next => exact ih unseen

theorem ahead_nil (next : Node → List Node) : ahead next [] = [] := rfl

theorem ahead_cons (next : Node → List Node) (n : Node) (level : List Node) :
    ahead next (n :: level) = next n ++ ahead next level := List.flatMap_cons

/-! ## all levels -/

/-- What is found on all the levels that follow a level. -/
def beyond (next : Node → List Node) (unseen level : List Node) : List Node :=
  (levels next unseen level).flatten

@[simp] theorem beyond_nil (next : Node → List Node) (unseen : List Node) :
    beyond next unseen [] = [] := by
  rw [beyond, levels]
  rfl

/-- That is what is found on the next level, and beyond it. -/
theorem beyond_eq (next : Node → List Node) (unseen level : List Node) :
    beyond next unseen level = (discover unseen (ahead next level)).1 ++
      beyond next (discover unseen (ahead next level)).2 (discover unseen (ahead next level)).1 := by
  conv => lhs; rw [beyond, levels]
  split
  next rest h => rw [h, beyond_nil]; rfl
  next n found rest h => rw [h]; rfl

/-- Nothing is found from a node without neighbours. -/
theorem beyond_singleton_of_nil (h : next n = []) : beyond next unseen [n] = [] := by
  rw [beyond_eq, ahead_cons, ahead_nil, h, List.append_nil, discover, beyond_nil, List.append_nil]

/-- Induction along the levels, until one is empty. -/
@[elab_as_elim]
theorem levels_induction {motive : List Node → List Node → Prop} (next : Node → List Node)
    (nil : ∀ unseen, motive unseen [])
    (level : ∀ unseen level,
      motive (discover unseen (ahead next level)).2 (discover unseen (ahead next level)).1 →
        motive unseen level)
    (start found : List Node) : motive start found := by
  induction start, found using levels.induct next with
  | case1 unseen found rest h => exact level unseen found (h ▸ nil rest)
  | case2 unseen found n ns rest h ih => exact level unseen found (h ▸ ih)

/-- Only unseen nodes are found, each of them once. -/
theorem beyond_subperm (next : Node → List Node) (unseen level : List Node) :
    (beyond next unseen level).Subperm unseen := by
  induction unseen, level using levels_induction next with
  | nil unseen => simp
  | level unseen level ih =>
      rw [beyond_eq]
      exact ((List.subperm_append_left _).2 ih).trans (discover_perm unseen _).subperm

theorem nodup_beyond (h : unseen.Nodup) : (beyond next unseen level).Nodup := by
  obtain ⟨found, hperm, hsublist⟩ := beyond_subperm next unseen level
  exact hperm.nodup_iff.1 (h.sublist hsublist)

/-- One or more steps lead from a node to another. -/
def LeadsBy (next : Node → List Node) : Node → Node → Prop :=
  Relation.TransGen fun n m => m ∈ next n

/-- A node of the level leads to each node that is found. -/
theorem exists_leadsBy_of_mem_beyond (h : m ∈ beyond next unseen level) :
    ∃ n ∈ level, LeadsBy next n m := by
  induction unseen, level using levels_induction next with
  | nil unseen => simp at h
  | level unseen level ih =>
      have hahead {x : Node} (hx : x ∈ (discover unseen (ahead next level)).1) :
          ∃ n ∈ level, x ∈ next n := List.mem_flatMap.1 (mem_discover.1 hx).1
      rw [beyond_eq, List.mem_append] at h
      obtain hfound | hbeyond := h
      · obtain ⟨n, hn, hm⟩ := hahead hfound
        exact ⟨n, hn, .single hm⟩
      · obtain ⟨x, hx, hm⟩ := ih hbeyond
        obtain ⟨n, hn, hxn⟩ := hahead hx
        exact ⟨n, hn, .head hxn hm⟩

/-- Of the unseen nodes, the neighbours of the level and of all that is found
are found. -/
theorem mem_beyond_of_mem_next (hn : n ∈ level ∨ n ∈ beyond next unseen level)
    (hm : m ∈ next n) (hunseen : m ∈ unseen) : m ∈ beyond next unseen level := by
  induction unseen, level using levels_induction next with
  | nil unseen => simp at hn
  | level unseen level ih =>
      rw [beyond_eq, List.mem_append] at hn ⊢
      obtain hfound | hrest :=
        List.mem_append.1 ((discover_perm unseen (ahead next level)).mem_iff.2 hunseen)
      · exact .inl hfound
      · obtain hlevel | hn := hn
        · exact .inl (mem_discover.2 ⟨List.mem_flatMap.2 ⟨n, hlevel, hm⟩, hunseen⟩)
        · exact .inr (ih hn hrest)

/-- If all neighbours are unseen at first, a search finds exactly what the start
leads to. -/
theorem mem_beyond_iff (hnext : ∀ n m, m ∈ next n → m ∈ unseen) :
    m ∈ beyond next unseen [n] ↔ LeadsBy next n m := by
  constructor
  · intro h
    obtain ⟨x, hx, hm⟩ := exists_leadsBy_of_mem_beyond h
    rwa [List.mem_singleton.1 hx] at hm
  · intro h
    induction h with
    | single hm => exact mem_beyond_of_mem_next (.inl (List.mem_singleton_self n)) hm (hnext _ _ hm)
    | tail _ hm ih => exact mem_beyond_of_mem_next (.inr ih) hm (hnext _ _ hm)

end CallGraph

/-! ## the queue -/

namespace Search

open CallGraph

variable {next : Node → List Node} {unseen level nodes found queue : List Node}

/-- Meeting nodes one by one discovers them. -/
theorem foldl_meet {candidates : List Node} (hperm : (found ++ unseen).Perm nodes)
    (hnodup : nodes.Nodup) (hmem : ∀ n ∈ candidates, n ∈ nodes) :
    candidates.foldl meet ⟨found, queue⟩ =
      ⟨found ++ (discover unseen candidates).1, queue ++ (discover unseen candidates).1⟩ := by
  induction candidates generalizing found unseen queue with
  | nil => simp [discover]
  | cons n ns ih =>
      have htail : ∀ m ∈ ns, m ∈ nodes := fun m hm => hmem m (List.mem_cons_of_mem n hm)
      rw [List.foldl_cons, discover, meet]
      by_cases hn : n ∈ unseen
      · have hfound : n ∉ found := fun h =>
          (List.nodup_append.1 (hperm.nodup_iff.2 hnodup)).2.2 n h n hn rfl
        have hrest : (found ++ [n] ++ unseen.erase n).Perm nodes := by
          rw [List.append_assoc]
          exact ((List.perm_cons_erase hn).symm.append_left found).trans hperm
        rw [if_neg hfound, if_pos hn, ih hrest htail]
        simp
      · have hfound : n ∈ found :=
          (List.mem_append.1 (hperm.mem_iff.2 (hmem n List.mem_cons_self))).resolve_right hn
        rw [if_pos hfound, if_neg hn, ih hperm htail]

/-- Looking at the nodes of a level one by one finds the next level. -/
theorem look_level (hperm : (found ++ unseen).Perm nodes) (hnodup : nodes.Nodup)
    (hnext : ∀ n m, m ∈ next n → m ∈ nodes) :
    (look next)^[level.length] ⟨found, level ++ queue⟩ =
      ⟨found ++ (discover unseen (ahead next level)).1,
        queue ++ (discover unseen (ahead next level)).1⟩ := by
  -- by induction on the level: what its first node discovers is queued behind
  -- the rest of the level, so the queue must stay general
  induction level generalizing found unseen queue with
  | nil => simp [ahead_nil, discover]
  | cons n level ih =>
      have hlook : look next ⟨found, n :: level ++ queue⟩ =
          ⟨found ++ (discover unseen (next n)).1,
            level ++ (queue ++ (discover unseen (next n)).1)⟩ := by
        rw [← List.append_assoc]
        exact foldl_meet hperm hnodup (hnext n)
      rw [List.length_cons, Function.iterate_succ_apply, hlook, ih (perm_discover hperm _),
        ahead_cons, discover_append, List.append_assoc, List.append_assoc]

/-- Looking at a level and at all that is found beyond it empties the queue. -/
theorem look_beyond (hperm : (found ++ unseen).Perm nodes) (hnodup : nodes.Nodup)
    (hnext : ∀ n m, m ∈ next n → m ∈ nodes) :
    (look next)^[level.length + (beyond next unseen level).length] ⟨found, level⟩ =
      ⟨found ++ beyond next unseen level, []⟩ := by
  induction unseen, level using levels_induction next generalizing found with
  | nil unseen => simp
  | level unseen level ih =>
      have hlevel : (look next)^[level.length] ⟨found, level⟩ =
          ⟨found ++ (discover unseen (ahead next level)).1,
            (discover unseen (ahead next level)).1⟩ := by
        have h : (look next)^[level.length] ⟨found, level ++ []⟩ = _ :=
          look_level hperm hnodup hnext
        rwa [List.append_nil, List.nil_append] at h
      rw [beyond_eq, List.length_append, Nat.add_comm level.length, Function.iterate_add_apply,
        hlevel, ih (perm_discover hperm _), List.append_assoc]

/-- From a node, as many looks as there are nodes and one more end the search,
and it has found what is beyond the node. -/
theorem look_start (hnodup : nodes.Nodup) (hnext : ∀ n m, m ∈ next n → m ∈ nodes) (n : Node)
    {k : Nat} (hk : nodes.length < k) :
    (look next)^[k] (start n) = ⟨beyond next nodes [n], []⟩ := by
  have hlength := (beyond_subperm next nodes [n]).length_le
  have hle : [n].length + (beyond next nodes [n]).length ≤ k := by
    rw [List.length_singleton]
    omega
  obtain ⟨more, rfl⟩ := Nat.exists_eq_add_of_le' hle
  have hend : (look next)^[[n].length + (beyond next nodes [n]).length] (start n) =
      ⟨beyond next nodes [n], []⟩ := look_beyond (.refl nodes) hnodup hnext
  rw [Function.iterate_add_apply, hend]
  exact Function.iterate_fixed rfl more

/-! ## numbered nodes -/

/-- A search for the numbers of nodes. -/
def renamed (number : Node → Nat) (s : Search Node) : Search Nat :=
  ⟨s.found.map number, s.queue.map number⟩

/-- A number is met as its node is if no other node has it. -/
theorem renamed_meet {number : Node → Nat} (s : Search Node) {n : Node}
    (hn : ∀ m, number n = number m ↔ n = m) :
    (s.renamed number).meet (number n) = (s.meet n).renamed number := by
  have hmem : number n ∈ s.found.map number ↔ n ∈ s.found := by
    rw [List.mem_map]
    constructor
    · rintro ⟨m, hm, heq⟩
      rwa [(hn m).1 heq.symm]
    · exact fun h => ⟨n, h, rfl⟩
  rw [meet, meet]
  by_cases hfound : n ∈ s.found
  · rw [if_pos hfound, if_pos]
    exact hmem.2 hfound
  · rw [if_neg hfound, if_neg]
    · simp [renamed]
    · exact fun h => hfound (hmem.1 h)

/-- So are several numbers. -/
theorem renamed_foldl_meet {number : Node → Nat} {candidates : List Node} (s : Search Node)
    (hnumber : ∀ n ∈ candidates, ∀ m, number n = number m ↔ n = m) :
    (candidates.map number).foldl meet (s.renamed number) =
      (candidates.foldl meet s).renamed number := by
  induction candidates generalizing s with
  | nil => rfl
  | cons n ns ih =>
      obtain ⟨hn, hns⟩ := List.forall_mem_cons.1 hnumber
      rw [List.map_cons, List.foldl_cons, List.foldl_cons, renamed_meet s hn, ih _ hns]

/-- Several looks at numbers are looks at the nodes. -/
theorem renamed_look {number : Node → Nat} {nextNumber : Nat → List Nat}
    (hnumber : ∀ n m, m ∈ next n → ∀ m', number m = number m' ↔ m = m')
    (hnext : ∀ n, nextNumber (number n) = (next n).map number) (looks : Nat) (s : Search Node) :
    (look nextNumber)^[looks] (s.renamed number) = ((look next)^[looks] s).renamed number := by
  have hlook : Function.Semiconj (renamed number) (look next) (look nextNumber) := by
    rintro ⟨found, queue⟩
    cases queue with
    | nil => rfl
    | cons n queue =>
        refine (renamed_foldl_meet ⟨found, queue⟩ (hnumber n)).symm.trans ?_
        rw [← hnext]
        rfl
  exact (hlook.iterate_right looks s).symm

end Search

/-! ## the graph -/

namespace CallGraph

variable {g : CallGraph} {n m : Node}

/-- One or more edges lead from a node to another. -/
def Leads (g : CallGraph) : Node → Node → Prop :=
  Relation.TransGen fun n m => ∃ r, ⟨n, m, r⟩ ∈ g.edges

/-- A node lies on a cycle if an edge leaves it to a node that is itself or leads
back to it. -/
def OnCycle (g : CallGraph) (n : Node) : Prop :=
  ∃ m r, ⟨n, m, r⟩ ∈ g.edges ∧ (m = n ∨ g.Leads m n)

theorem leads_self_iff : g.Leads n n ↔ g.OnCycle n := by
  rw [Leads, Relation.TransGen.head'_iff]
  constructor
  · rintro ⟨m, ⟨r, hr⟩, hback⟩
    obtain rfl | hback := Relation.reflTransGen_iff_eq_or_transGen.1 hback
    · exact ⟨_, r, hr, .inl rfl⟩
    · exact ⟨m, r, hr, .inr hback⟩
  · rintro ⟨m, r, hr, rfl | hback⟩
    · exact ⟨m, ⟨r, hr⟩, .refl⟩
    · exact ⟨m, ⟨r, hr⟩, hback.to_reflTransGen⟩

theorem mem_callees_iff : m ∈ g.callees n ↔ ∃ r, ⟨n, m, r⟩ ∈ g.edges := by
  rw [mem_callees]
  constructor
  · rintro ⟨e, he, rfl, rfl⟩
    exact ⟨e.resolutions, he⟩
  · rintro ⟨r, hr⟩
    exact ⟨_, hr, rfl, rfl⟩

theorem mem_callers_iff : m ∈ g.callers n ↔ ∃ r, ⟨m, n, r⟩ ∈ g.edges := by
  rw [mem_callers]
  constructor
  · rintro ⟨e, he, rfl, rfl⟩
    exact ⟨e.resolutions, he⟩
  · rintro ⟨r, hr⟩
    exact ⟨_, hr, rfl, rfl⟩

theorem mem_nodes_of_mem_callees (h : m ∈ g.callees n) : m ∈ g.nodes := by
  obtain ⟨r, hr⟩ := mem_callees_iff.1 h
  exact (g.ends_mem _ hr).2

theorem mem_nodes_of_mem_callers (h : m ∈ g.callers n) : m ∈ g.nodes := by
  obtain ⟨r, hr⟩ := mem_callers_iff.1 h
  exact (g.ends_mem _ hr).1

theorem leadsBy_callees_iff : LeadsBy g.callees n m ↔ g.Leads n m := by
  simp only [LeadsBy, Leads, mem_callees_iff]

theorem leadsBy_callers_iff : LeadsBy g.callers n m ↔ g.Leads m n := by
  simp only [LeadsBy, Leads, mem_callers_iff]
  exact Relation.transGen_swap

theorem mem_allDependencies_iff : m ∈ g.allDependencies n ↔ g.Leads n m :=
  (mem_beyond_iff fun _ _ => mem_nodes_of_mem_callees).trans leadsBy_callees_iff

theorem mem_allDependents_iff : m ∈ g.allDependents n ↔ g.Leads m n :=
  (mem_beyond_iff fun _ _ => mem_nodes_of_mem_callers).trans leadsBy_callers_iff

/-- The ends of a chain of edges are in the graph. -/
theorem mem_nodes_of_leads (h : g.Leads n m) : n ∈ g.nodes ∧ m ∈ g.nodes := by
  obtain ⟨_, ⟨r, hr⟩, -⟩ := Relation.TransGen.head'_iff.1 h
  obtain ⟨_, -, ⟨r', hr'⟩⟩ := Relation.TransGen.tail'_iff.1 h
  exact ⟨(g.ends_mem _ hr).1, (g.ends_mem _ hr').2⟩

theorem callees_of_not_mem (h : n ∉ g.nodes) : g.callees n = [] :=
  congrArg (List.map Edge.callee) (incident_of_not_mem h).1

theorem callers_of_not_mem (h : n ∉ g.nodes) : g.callers n = [] :=
  congrArg (List.map Edge.caller) (incident_of_not_mem h).2

end CallGraph

/-! ## the graph in memory -/

namespace IndexedGraph

variable {s : IndexedGraph} {g : CallGraph} {n : Node} {side other : Link → Nat}

/-- The neighbours of a number are those of its node, where `side` and `other`
are the numbers of the ends `near` and `far`. -/
theorem Keeps.neighbours (h : s.Keeps g) {near far : Edge → Node}
    (hside : ∀ e ∈ g.edges, side (e.link g.nodes) = g.nodes.idxOf (near e))
    (hother : ∀ e ∈ g.edges, other (e.link g.nodes) = g.nodes.idxOf (far e))
    (hnear : ∀ e ∈ g.edges, near e ∈ g.nodes) (n : Node) :
    s.neighbours side other (g.nodes.idxOf n) =
      ((g.edges.filter (near · = n)).reverse.map far).map g.nodes.idxOf := by
  rw [IndexedGraph.neighbours, h.filter_links hside hnear, ← List.map_reverse, List.map_map,
    List.map_map]
  refine List.map_congr_left fun e he => ?_
  exact hother e (List.mem_filter.1 (List.mem_reverse.1 he)).1

/-- A search along numbers finds what a search along nodes does. -/
theorem Keeps.search (h : s.Keeps g) {next : Node → List Node}
    (hneighbours : ∀ n, s.neighbours side other (g.nodes.idxOf n) = (next n).map g.nodes.idxOf)
    (hnext : ∀ n m, m ∈ next n → m ∈ g.nodes) (habsent : n ∉ g.nodes → next n = []) :
    s.search side other n = CallGraph.beyond next g.nodes [n] := by
  rw [IndexedGraph.search, h.index n]
  by_cases hn : n ∈ g.nodes
  · have hlook : (Search.look (s.neighbours side other))^[g.nodes.length + 1]
        (.start (g.nodes.idxOf n)) =
          Search.renamed g.nodes.idxOf ⟨CallGraph.beyond next g.nodes [n], []⟩ := by
      rw [← Search.look_start g.nodes_nodup hnext n (Nat.lt_succ_self g.nodes.length)]
      exact Search.renamed_look (fun n m hm _ => List.idxOf_inj (hnext n m hm)) hneighbours
        (g.nodes.length + 1) (.start n)
    have hfound : ∀ m ∈ CallGraph.beyond next g.nodes [n], m ∈ g.nodes :=
      fun m hm => (CallGraph.beyond_subperm next g.nodes [n]).subset hm
    rw [CallGraph.position?_of_mem hn, h.nodes]
    dsimp only
    rw [hlook, Search.renamed, List.filterMap_map]
    calc _ = (CallGraph.beyond next g.nodes [n]).filterMap some :=
          List.filterMap_congr fun m hm => List.getElem?_idxOf (hfound m hm)
      _ = CallGraph.beyond next g.nodes [n] := List.filterMap_some
  · rw [CallGraph.position?_of_not_mem hn, CallGraph.beyond_singleton_of_nil (habsent hn)]

theorem Keeps.allDependencies (h : s.Keeps g) (n : Node) :
    s.allDependencies n = g.allDependencies n :=
  h.search (h.neighbours (fun _ _ => rfl) (fun _ _ => rfl) fun e he => (g.ends_mem e he).1)
    (fun _ _ => CallGraph.mem_nodes_of_mem_callees) CallGraph.callees_of_not_mem

theorem Keeps.allDependents (h : s.Keeps g) (n : Node) : s.allDependents n = g.allDependents n :=
  h.search (h.neighbours (fun _ _ => rfl) (fun _ _ => rfl) fun e he => (g.ends_mem e he).2)
    (fun _ _ => CallGraph.mem_nodes_of_mem_callers) CallGraph.callers_of_not_mem

end IndexedGraph

/-! ## transitive queries -/

namespace CallGraph

/-- Transitive queries are exact, on cyclic graphs too.  Neither lists a node
twice.  The one lists what a node leads to along one or more edges, the other
what leads to it, so that the node itself is listed exactly if it lies on a
cycle, nothing is listed for a node that is not in the graph, and one node is
among the dependencies of another exactly if this one is among the dependents
of that.  A queue on which the start is put without being found runs empty
after at most one look for each node of the graph and one for the start, and
then it has found the same nodes in the same order.  So it is in memory after
every sequence of insertions that leaves the graph, and there is one. -/
theorem queries_exact (g : CallGraph) (n : Node) :
    (g.allDependencies n).Nodup ∧ (g.allDependents n).Nodup ∧
    (∀ m, (m ∈ g.allDependencies n ↔ g.Leads n m) ∧ (m ∈ g.allDependents n ↔ g.Leads m n)) ∧
    (n ∈ g.allDependencies n ↔ g.OnCycle n) ∧ (n ∈ g.allDependents n ↔ g.OnCycle n) ∧
    (n ∉ g.nodes → g.allDependencies n = [] ∧ g.allDependents n = []) ∧
    (∀ m, m ∈ g.allDependencies n ↔ n ∈ g.allDependents m) ∧
    (∀ looks, g.nodeCount < looks →
      (Search.look g.callees)^[looks] (.start n) = ⟨g.allDependencies n, []⟩ ∧
      (Search.look g.callers)^[looks] (.start n) = ⟨g.allDependents n, []⟩) ∧
    (∃ is, ofInsertions is = g) ∧ ∀ is, ofInsertions is = g →
      (IndexedGraph.ofInsertions is).allDependencies n = g.allDependencies n ∧
      (IndexedGraph.ofInsertions is).allDependents n = g.allDependents n := by
  refine ⟨nodup_beyond g.nodes_nodup, nodup_beyond g.nodes_nodup,
    fun m => ⟨mem_allDependencies_iff, mem_allDependents_iff⟩,
    mem_allDependencies_iff.trans leads_self_iff, mem_allDependents_iff.trans leads_self_iff,
    fun hn => ⟨beyond_singleton_of_nil (callees_of_not_mem hn),
      beyond_singleton_of_nil (callers_of_not_mem hn)⟩,
    fun m => mem_allDependencies_iff.trans mem_allDependents_iff.symm, fun looks hlooks => ⟨?_, ?_⟩,
    g.exists_ofInsertions, fun is his => ?_⟩
  · exact Search.look_start g.nodes_nodup (fun _ _ => mem_nodes_of_mem_callees) n hlooks
  · exact Search.look_start g.nodes_nodup (fun _ _ => mem_nodes_of_mem_callers) n hlooks
  · subst his
    have hkeeps := IndexedGraph.keeps_ofInsertions is
    exact ⟨hkeeps.allDependencies n, hkeeps.allDependents n⟩

example :
    let a : Node := .entry ⟨"Test", "A"⟩
    let b : Node := .entry ⟨"Test", "B"⟩
    let c : Node := .entry ⟨"Test", "C"⟩
    let g : CallGraph := ofInsertions
      [.dependency ⟨a, b, ∅⟩, .dependency ⟨b, a, ∅⟩, .dependency ⟨b, c, ∅⟩]
    g.allDependencies a = [b, c, a] ∧ g.allDependents c = [b, a] ∧ g.allDependencies c = [] := by
  decide +kernel

end CallGraph

end CallGraphs
