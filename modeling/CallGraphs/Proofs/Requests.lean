import CallGraphs.Proofs.Insertions
import CallGraphs.Proofs.Recording
import CallGraphs.Worklist.Indexed

/-!
# CallGraphs.Proofs.Requests

Worklists under any sequence of offers and pops.  The log of the replies tells
which nodes were accepted and which came out, and the state of the worklist can
be read off it.

* `Tells.offer`, `Tells.pop` — one request;
* `tells_run` — sequences of requests;
* `Keeps.offer`, `Keeps.pop` — the worklist in memory takes the same steps;
* `run_answered` — what is replied to any sequence of requests.
-/

namespace CallGraphs

namespace Worklist

/-! ## requests -/

/-- What can be asked of a worklist. -/
inductive Request where
  | offer (n : Node)
  | pop
  deriving DecidableEq

/-- What is replied: whether an offered node was accepted, or what came out. -/
inductive Reply where
  | offered (n : Node) (accepted : Bool)
  | popped (next : Option Node)
  deriving DecidableEq

/-- The node that is offered. -/
def Request.offered? : Request → Option Node
  | .offer n => some n
  | .pop => none

/-- The reply of a worklist that accepts nothing and holds nothing. -/
def Request.refused : Request → Reply
  | .offer n => .offered n false
  | .pop => .popped none

/-- The node that was accepted. -/
def Reply.accepted? : Reply → Option Node
  | .offered n true => some n
  | .offered _ false => none
  | .popped _ => none

/-- The node that came out. -/
def Reply.popped? : Reply → Option Node
  | .offered _ _ => none
  | .popped next => next

/-- The nodes that were accepted according to a log, in order. -/
def acceptedIn (log : List Reply) : List Node := log.filterMap Reply.accepted?

/-- The nodes that came out according to a log, in order. -/
def poppedIn (log : List Reply) : List Node := log.filterMap Reply.popped?

@[simp] theorem acceptedIn_append (log log' : List Reply) :
    acceptedIn (log ++ log') = acceptedIn log ++ acceptedIn log' := List.filterMap_append

@[simp] theorem poppedIn_append (log log' : List Reply) :
    poppedIn (log ++ log') = poppedIn log ++ poppedIn log' := List.filterMap_append

@[simp] theorem acceptedIn_singleton (reply : Reply) :
    acceptedIn [reply] = reply.accepted?.toList := by
  cases h : reply.accepted? <;> simp [acceptedIn, h]

@[simp] theorem poppedIn_singleton (reply : Reply) : poppedIn [reply] = reply.popped?.toList := by
  cases h : reply.popped? <;> simp [poppedIn, h]

/-- The two operations of a worklist, in whatever it is kept. -/
structure Operations (σ : Type) where
  offer : σ → Node → Bool × σ
  pop : σ → Option (Node × σ)

namespace Operations

variable {σ τ : Type} {o : Operations σ} {o' : Operations τ} {s : σ} {t : τ}

/-- The reply to a request, and what it leaves. -/
def answer (o : Operations σ) (s : σ) : Request → Reply × σ
  | .offer n => (.offered n (o.offer s n).1, (o.offer s n).2)
  | .pop =>
    match o.pop s with
    | none => (.popped none, s)
    | some (n, s') => (.popped (some n), s')

/-- The replies to several requests, and what they leave. -/
def run (o : Operations σ) (s : σ) (rs : List Request) : List Reply × σ :=
  rs.foldl (fun done r => (done.1 ++ [(o.answer done.2 r).1], (o.answer done.2 r).2)) ([], s)

/-- One more request is answered by what the others leave. -/
theorem run_concat (o : Operations σ) (s : σ) (rs : List Request) (r : Request) :
    o.run s (rs ++ [r]) =
      ((o.run s rs).1 ++ [(o.answer (o.run s rs).2 r).1], (o.answer (o.run s rs).2 r).2) := by
  rw [run, List.foldl_append]
  rfl

/-- Whatever refuses all requests goes on refusing them. -/
theorem run_of_refused (h : ∀ r, o.answer s r = (r.refused, s)) (rs : List Request) :
    o.run s rs = (rs.map Request.refused, s) := by
  induction rs using List.reverseRecOn with
  | nil => rfl
  | append_singleton rs r ih => rw [run_concat, ih, h, List.map_append, List.map_singleton]

/-- A relation under which every request has the same reply is kept by all of
them. -/
theorem run_of_simulation {R : σ → τ → Prop}
    (hstep : ∀ s t, R s t → ∀ r,
      (o.answer s r).1 = (o'.answer t r).1 ∧ R (o.answer s r).2 (o'.answer t r).2)
    (h : R s t) (rs : List Request) :
    (o.run s rs).1 = (o'.run t rs).1 ∧ R (o.run s rs).2 (o'.run t rs).2 := by
  induction rs using List.reverseRecOn with
  | nil => exact ⟨rfl, h⟩
  | append_singleton rs r ih =>
      obtain ⟨hlog, hrelated⟩ := ih
      obtain ⟨hreply, hnext⟩ := hstep _ _ hrelated r
      rw [run_concat, run_concat, hlog, hreply]
      exact ⟨rfl, hnext⟩

end Operations

/-- The operations of a worklist. -/
def operations : Operations Worklist := ⟨offer, pop⟩

/-! ## the log and the state -/

variable {w w' : Worklist} {n : Node} {log : List Reply}

/-- A node that was accepted before is refused. -/
theorem offer_of_accepted (h : n ∈ w.accepted) : w.offer n = (false, w) := by
  have hrefused : ¬ (w.active = true ∧ n ∉ w.pending ++ w.resolved) := fun hnew => hnew.2 h
  rw [offer, dif_neg hrefused]

/-- A new node is accepted by an active worklist and comes next. -/
theorem offer_of_new (hactive : w.active = true) (h : n ∉ w.accepted) :
    (w.offer n).1 = true ∧ (w.offer n).2.pending = n :: w.pending := by
  rw [offer, dif_pos ⟨hactive, h⟩]
  exact ⟨rfl, rfl⟩

/-- What comes out is pending no longer. -/
theorem not_mem_pending_of_pop (h : w.pop = some (n, w')) : n ∉ w'.pending := by
  have hnodup := (List.nodup_append.1 w.nodup).1
  rw [(pop_eq_some h).1] at hnodup
  exact (List.nodup_cons.1 hnodup).1

/-- A log tells the state of an active worklist: the pending nodes are those
that were accepted and did not come out, the last one first. -/
structure Tells (log : List Reply) (w : Worklist) : Prop where
  active : w.active = true
  pending : w.pending = ((acceptedIn log).filter (· ∉ poppedIn log)).reverse
  resolved : w.resolved = (poppedIn log).reverse
  popped_accepted : ∀ n ∈ poppedIn log, n ∈ acceptedIn log
  accepted_nodup : (acceptedIn log).Nodup

namespace Tells

theorem initial : Tells [] demandDriven where
  active := rfl
  pending := rfl
  resolved := rfl
  popped_accepted _ hn := hn
  accepted_nodup := List.nodup_nil

/-- It tells which nodes were ever accepted. -/
theorem mem_accepted_iff (h : Tells log w) : n ∈ w.accepted ↔ n ∈ acceptedIn log := by
  have hpopped := h.popped_accepted n
  simp only [accepted, h.pending, h.resolved, List.mem_append, List.mem_reverse, List.mem_filter,
    decide_eq_true_eq]
  tauto

/-- A reply that neither accepts nor brings out a node leaves the state as it
was. -/
theorem still (h : Tells log w) {reply : Reply} (haccepted : reply.accepted? = none)
    (hpopped : reply.popped? = none) : Tells (log ++ [reply]) w := by
  have haccepted' : acceptedIn (log ++ [reply]) = acceptedIn log := by simp [haccepted]
  have hpopped' : poppedIn (log ++ [reply]) = poppedIn log := by simp [hpopped]
  constructor
  case active => exact h.active
  case pending => rw [haccepted', hpopped', h.pending]
  case resolved => rw [hpopped', h.resolved]
  case popped_accepted => rw [haccepted', hpopped']; exact h.popped_accepted
  case accepted_nodup => rw [haccepted']; exact h.accepted_nodup

/-- The log of an offer goes on telling the state. -/
theorem offer (h : Tells log w) (n : Node) :
    Tells (log ++ [.offered n (w.offer n).1]) (w.offer n).2 := by
  by_cases hn : n ∈ w.accepted
  · rw [offer_of_accepted hn]
    exact h.still rfl rfl
  · obtain ⟨haccepted, hpending⟩ := offer_of_new h.active hn
    have hnew : n ∉ acceptedIn log := fun hmem => hn (h.mem_accepted_iff.2 hmem)
    -- what came out was accepted before, so the new node did not come out
    have hwaits : n ∉ poppedIn log := fun hmem => hnew (h.popped_accepted n hmem)
    have haccepted' : acceptedIn (log ++ [.offered n true]) = acceptedIn log ++ [n] := by
      simp [Reply.accepted?]
    have hpopped' : poppedIn (log ++ [.offered n true]) = poppedIn log := by simp [Reply.popped?]
    rw [haccepted]
    constructor
    case active => rw [active_offer, h.active]
    case pending =>
      have hlast : [n].filter (· ∉ poppedIn log) = [n] := by simp [hwaits]
      rw [haccepted', hpopped', List.filter_append, hlast, List.reverse_concat, ← h.pending,
        hpending]
    case resolved => rw [hpopped', resolved_offer, h.resolved]
    case popped_accepted =>
      rw [haccepted', hpopped']
      exact fun m hm => List.mem_append_left _ (h.popped_accepted m hm)
    case accepted_nodup =>
      rw [haccepted', ← List.concat_eq_append]
      exact h.accepted_nodup.concat hnew

/-- So does the log of a pop. -/
theorem pop (h : Tells log w) (hpop : w.pop = some (n, w')) :
    Tells (log ++ [.popped (some n)]) w' := by
  obtain ⟨hpending, hresolved, hactive⟩ := pop_eq_some hpop
  have hwaited : n ∈ acceptedIn log := h.mem_accepted_iff.1 (next_mem_accepted hpop)
  have haccepted' : acceptedIn (log ++ [.popped (some n)]) = acceptedIn log := by
    simp [Reply.accepted?]
  have hpopped' : poppedIn (log ++ [.popped (some n)]) = poppedIn log ++ [n] := by
    simp [Reply.popped?]
  constructor
  case active => rw [hactive, h.active]
  case pending =>
    have hdistinct : n ∉ w'.pending := not_mem_pending_of_pop hpop
    have hothers : w'.pending = w.pending.filter (· ≠ n) := by
      have hrest : w'.pending.filter (· ≠ n) = w'.pending :=
        List.filter_eq_self.2 fun m hm => decide_eq_true fun hmn => hdistinct (hmn ▸ hm)
      rw [hpending, List.filter_cons_of_neg (by simp), hrest]
    have hboth : ∀ m, (decide (m ≠ n) && decide (m ∉ poppedIn log)) =
        decide (m ∉ poppedIn log ++ [n]) := by
      intro m
      rw [← Bool.decide_and, decide_eq_decide, List.mem_append, List.mem_singleton, not_or,
        and_comm]
    rw [haccepted', hpopped', hothers, h.pending, List.filter_reverse, List.filter_filter]
    simp only [hboth]
  case resolved => rw [hpopped', hresolved, h.resolved, List.reverse_concat]
  case popped_accepted =>
    rw [haccepted', hpopped']
    intro m hm
    obtain hm | hm := List.mem_append.1 hm
    · exact h.popped_accepted m hm
    · exact List.mem_singleton.1 hm ▸ hwaited
  case accepted_nodup => rw [haccepted']; exact h.accepted_nodup

/-- So does the log of any request. -/
theorem answer (h : Tells log w) (r : Request) :
    Tells (log ++ [(operations.answer w r).1]) (operations.answer w r).2 := by
  cases r with
  | offer n => exact h.offer n
  | pop =>
      rw [Operations.answer]
      cases hpop : operations.pop w with
      | none => exact h.still rfl rfl
      | some next => exact h.pop hpop

/-! ## what it tells -/

/-- A node is accepted exactly if it was never accepted before. -/
theorem offer_fst_iff (h : Tells log w) : (w.offer n).1 = true ↔ n ∉ acceptedIn log := by
  rw [offer_fst, h.active, Bool.true_and, decide_eq_true_iff]
  exact not_congr h.mem_accepted_iff

/-- What comes out is the last accepted node that did not come out yet. -/
theorem pop_fst (h : Tells log w) :
    w.pop.map Prod.fst = ((acceptedIn log).filter (· ∉ poppedIn log)).getLast? := by
  have hhead : w.pop.map Prod.fst = w.pending.head? := by
    cases hpop : w.pop with
    | none => rw [pop_eq_none_iff.1 hpop]; rfl
    | some next =>
        obtain ⟨n, w'⟩ := next
        rw [(pop_eq_some hpop).1]
        rfl
  rw [hhead, h.pending, List.head?_reverse]

/-- Nothing comes out exactly if all accepted nodes did. -/
theorem pop_eq_none_iff (h : Tells log w) :
    w.pop = none ↔ ∀ n ∈ acceptedIn log, n ∈ poppedIn log := by
  rw [Worklist.pop_eq_none_iff, h.pending, List.reverse_eq_nil_iff, List.filter_eq_nil_iff]
  simp

/-- No node comes out twice. -/
theorem popped_nodup (h : Tells log w) : (poppedIn log).Nodup := by
  have hresolved := w.resolved_nodup
  rwa [h.resolved, List.nodup_reverse] at hresolved

/-- An accepted node is pending or came out. -/
theorem pendingCount_add (h : Tells log w) :
    w.pendingCount + (poppedIn log).length = (acceptedIn log).length := by
  have hperm : w.accepted.Perm (acceptedIn log) :=
    (List.perm_ext_iff_of_nodup w.nodup h.accepted_nodup).2 fun n => h.mem_accepted_iff
  have hlength := hperm.length_eq
  rwa [accepted, List.length_append, h.resolved, List.length_reverse] at hlength

end Tells

/-- A log tells the state after any sequence of requests. -/
theorem tells_run (rs : List Request) :
    Tells (operations.run demandDriven rs).1 (operations.run demandDriven rs).2 := by
  induction rs using List.reverseRecOn with
  | nil => exact .initial
  | append_singleton rs r ih =>
      rw [operations.run_concat]
      exact ih.answer r

/-- The accepted nodes are those that were offered, each for the first time. -/
theorem acceptedIn_run (rs : List Request) :
    acceptedIn (operations.run demandDriven rs).1 = (rs.filterMap Request.offered?).eraseDups := by
  induction rs using List.reverseRecOn with
  | nil => rfl
  | append_singleton rs r ih =>
      rw [operations.run_concat, acceptedIn_append, List.filterMap_append]
      cases r with
      | pop =>
          have hnone : acceptedIn [(operations.answer (operations.run demandDriven rs).2 .pop).1]
              = [] := by
            rw [Operations.answer]
            cases operations.pop (operations.run demandDriven rs).2 <;> rfl
          have hkept : [Request.pop].filterMap Request.offered? = [] := rfl
          rw [hnone, hkept, ih, List.append_nil, List.append_nil]
      | offer n =>
          have hreply := (tells_run rs).offer_fst_iff (n := n)
          simp only [ih, List.mem_eraseDups] at hreply
          show acceptedIn _ ++ acceptedIn [.offered n ((operations.run demandDriven rs).2.offer n).1]
            = (rs.filterMap Request.offered? ++ [n]).eraseDups
          rw [eraseDups_concat, ih]
          by_cases hn : n ∈ rs.filterMap Request.offered?
          · rw [if_pos hn, Bool.eq_false_iff.2 fun h => hreply.1 h hn]
            exact List.append_nil _
          · rw [if_neg hn, hreply.2 hn]
            rfl

/-- An inactive worklist refuses every request. -/
theorem answer_inactive (r : Request) : operations.answer inactive r = (r.refused, inactive) := by
  cases r <;> rfl

end Worklist

/-! ## in memory -/

namespace IndexedWorklist

open Worklist

variable {s : IndexedWorklist} {w : Worklist} {n : Node}

/-- The operations of a worklist in memory. -/
def operations : Operations IndexedWorklist := ⟨offer, pop⟩

/-- Stack and sets are in step: the stack holds each of the pending nodes once,
and none of them is resolved. -/
structure Consistent (s : IndexedWorklist) : Prop where
  nodup : s.stack.toList.Nodup
  pending : ∀ n, n ∈ s.pending ↔ n ∈ s.stack
  resolved : ∀ n ∈ s.stack, n ∉ s.resolved

/-- Stack and sets keep a worklist. -/
structure Keeps (s : IndexedWorklist) (w : Worklist) : Prop where
  active : s.active = w.active
  stack : s.stack.toList = w.pending.reverse
  pending : ∀ n, n ∈ s.pending ↔ n ∈ w.pending
  resolved : ∀ n, n ∈ s.resolved ↔ n ∈ w.resolved

namespace Keeps

theorem demandDriven : IndexedWorklist.demandDriven.Keeps .demandDriven where
  active := rfl
  stack := rfl
  pending n := by simp [IndexedWorklist.demandDriven, Worklist.demandDriven]
  resolved n := by simp [IndexedWorklist.demandDriven, Worklist.demandDriven]

/-- What keeps a worklist is consistent. -/
theorem consistent (h : s.Keeps w) : s.Consistent := by
  have hmem : ∀ n, n ∈ s.stack ↔ n ∈ w.pending := fun n => by
    rw [← Array.mem_toList_iff, h.stack, List.mem_reverse]
  obtain ⟨hpending, -, hdisjoint⟩ := List.nodup_append.1 w.nodup
  constructor
  case nodup => rw [h.stack]; exact List.nodup_reverse.2 hpending
  case pending => exact fun n => (h.pending n).trans (hmem n).symm
  case resolved =>
    intro n hn hresolved
    exact hdisjoint n ((hmem n).1 hn) n ((h.resolved n).1 hresolved) rfl

theorem pendingCount_eq (h : s.Keeps w) : s.pendingCount = w.pendingCount := by
  rw [pendingCount, Worklist.pendingCount, ← Array.length_toList, h.stack, List.length_reverse]

/-- An offer is answered alike and keeps the worklist that it leaves. -/
theorem offer (h : s.Keeps w) (n : Node) :
    (s.offer n).1 = (w.offer n).1 ∧ (s.offer n).2.Keeps (w.offer n).2 := by
  have hrefused : (!s.active || s.resolved.contains n || s.pending.contains n) = true ↔
      ¬ (w.active = true ∧ n ∉ w.pending ++ w.resolved) := by
    simp only [Bool.or_eq_true, Bool.not_eq_true', Std.HashSet.contains_iff_mem, h.active,
      h.pending, h.resolved, List.mem_append]
    grind
  by_cases hnew : w.active = true ∧ n ∉ w.pending ++ w.resolved
  · rw [IndexedWorklist.offer, if_neg fun hr => hrefused.1 hr hnew, Worklist.offer, dif_pos hnew]
    refine ⟨rfl, ?_⟩
    constructor
    case active => exact h.active
    case stack => simp [h.stack]
    case pending =>
      intro m
      simp only [Std.HashSet.mem_insert, beq_iff_eq, @eq_comm _ n, h.pending, List.mem_cons]
    case resolved => exact h.resolved
  · rw [IndexedWorklist.offer, if_pos (hrefused.2 hnew), Worklist.offer, dif_neg hnew]
    exact ⟨rfl, h⟩

/-- So is a pop. -/
theorem pop (h : s.Keeps w) :
    (s.pop = none ∧ w.pop = none) ∨
      ∃ n s' w', s.pop = some (n, s') ∧ w.pop = some (n, w') ∧ s'.Keeps w' := by
  have htop : s.stack.back? = w.pending.head? := by
    rw [← Array.getLast?_toList, h.stack, List.getLast?_reverse]
  cases hpop : w.pop with
  | none =>
      rw [Worklist.pop_eq_none_iff.1 hpop] at htop
      exact .inl ⟨by rw [IndexedWorklist.pop, htop]; rfl, rfl⟩
  | some next =>
      obtain ⟨n, w'⟩ := next
      obtain ⟨hpending, hresolved, hactive⟩ := pop_eq_some hpop
      have hdistinct : n ∉ w'.pending := not_mem_pending_of_pop hpop
      rw [hpending] at htop
      refine .inr ⟨n, _, w', by rw [IndexedWorklist.pop, htop]; rfl, rfl, ?_⟩
      constructor
      case active => exact h.active.trans hactive.symm
      case stack => simp [h.stack, hpending]
      case pending =>
        intro m
        simp only [Std.HashSet.mem_erase, h.pending, hpending, List.mem_cons, beq_eq_false_iff_ne]
        constructor
        · rintro ⟨hne, rfl | hm⟩
          · exact absurd rfl hne
          · exact hm
        · exact fun hm => ⟨fun hnm => hdistinct (hnm ▸ hm), .inr hm⟩
      case resolved =>
        intro m
        simp only [Std.HashSet.mem_insert, beq_iff_eq, @eq_comm _ n, h.resolved, hresolved,
          List.mem_cons]

/-- Every request is answered alike and keeps the worklist that it leaves. -/
theorem answer (h : s.Keeps w) (r : Request) :
    (operations.answer s r).1 = (Worklist.operations.answer w r).1 ∧
      (operations.answer s r).2.Keeps (Worklist.operations.answer w r).2 := by
  cases r with
  | offer n =>
      obtain ⟨hreply, hkeeps⟩ := h.offer n
      exact ⟨congrArg (Reply.offered n) hreply, hkeeps⟩
  | pop =>
      rw [Operations.answer, Operations.answer, operations, Worklist.operations]
      obtain ⟨hs, hw⟩ | ⟨n, s', w', hs, hw, hkeeps⟩ := h.pop
      · simpa only [hs, hw, true_and] using h
      · simpa only [hs, hw, true_and] using hkeeps

end Keeps

/-- An inactive worklist in memory refuses every request. -/
theorem answer_inactive (r : Request) :
    operations.answer inactive r = (r.refused, inactive) := by
  cases r <;> rfl

end IndexedWorklist

/-! ## any sequence of requests -/

namespace Worklist

/-- A node is accepted by a worklist and comes out of it at most once.  After
any sequence of offers and pops, an offer is accepted exactly if the node was
never accepted before, that is, never offered.  A pop brings out the last
accepted node that did not come out yet, and nothing exactly if all of them
did.  No node comes out twice, none that was not accepted, and those that did
not come out are pending.  In memory the same requests have the same replies,
and leave a stack and two sets that are in step.  An inactive worklist refuses
all requests. -/
theorem run_answered (rs : List Request) :
    let log := (operations.run demandDriven rs).1
    let w := (operations.run demandDriven rs).2
    let s := (IndexedWorklist.operations.run .demandDriven rs).2
    (acceptedIn log = (rs.filterMap Request.offered?).eraseDups ∧
      ∀ n, (w.offer n).1 = true ↔ n ∉ acceptedIn log) ∧
    (w.pop.map Prod.fst = ((acceptedIn log).filter (· ∉ poppedIn log)).getLast? ∧
      (w.pop = none ↔ ∀ n ∈ acceptedIn log, n ∈ poppedIn log)) ∧
    ((poppedIn log).Nodup ∧ ∀ n ∈ poppedIn log, n ∈ acceptedIn log) ∧
    w.pendingCount + (poppedIn log).length = (acceptedIn log).length ∧
    ((IndexedWorklist.operations.run .demandDriven rs).1 = log ∧
      s.pendingCount = w.pendingCount ∧ s.Consistent ∧
      ∀ n, n ∈ s.resolved ↔ n ∈ poppedIn log) ∧
    (operations.run inactive rs).1 = rs.map Request.refused ∧
    (IndexedWorklist.operations.run .inactive rs).1 = rs.map Request.refused := by
  intro log w s
  have htells : Tells log w := tells_run rs
  obtain ⟨hlog, hkeeps⟩ := Operations.run_of_simulation (R := IndexedWorklist.Keeps)
    (fun _ _ h => h.answer) IndexedWorklist.Keeps.demandDriven rs
  refine ⟨⟨acceptedIn_run rs, fun n => htells.offer_fst_iff⟩,
    ⟨htells.pop_fst, htells.pop_eq_none_iff⟩, ⟨htells.popped_nodup, htells.popped_accepted⟩,
    htells.pendingCount_add,
    ⟨hlog, hkeeps.pendingCount_eq, hkeeps.consistent, fun n => ?_⟩, ?_, ?_⟩
  · rw [hkeeps.resolved, htells.resolved, List.mem_reverse]
  · rw [Operations.run_of_refused answer_inactive]
  · rw [Operations.run_of_refused IndexedWorklist.answer_inactive]

/-- A node that waits or came out is not accepted again, and the last accepted
one comes out first. -/
example :
    let a : Node := .entry ⟨"Test", "A"⟩
    let b : Node := .entry ⟨"Test", "B"⟩
    (operations.run demandDriven [.offer a, .offer b, .offer a, .pop, .offer b, .pop, .pop]).1 =
      [.offered a true, .offered b true, .offered a false, .popped (some b), .offered b false,
        .popped (some a), .popped none] := by
  decide

end Worklist

end CallGraphs
