import CallGraphs.Proofs.Parts
import CallGraphs.Syntax.Outline

/-!
# CallGraphs.Proofs.Outlines

What an outline holds, with a limit and without.  The traversal writes the
same entries one after the other whatever the limit is, and the first one
beyond the limit is the last one written.

* `Outline.forM_write_none`, `Outline.forM_write_some` — entries written in a row;
* `Outline.of_eq` — the entries of an outline, part by part;
* `Visitor.visitPart_identifiers` — what a visitor sees that looks at identifiers only;
* `Outline.of_limit` — a limited outline is the start of the full one.
-/

namespace CallGraphs

/-! ## entries in a row -/

namespace Outline

theorem write_none (entry : Entry) (log : List Entry) :
    write none entry log = .ok () (log ++ [entry]) := rfl

theorem write_some (n : Nat) (entry : Entry) (log : List Entry) :
    write (some n) entry log =
      if n < (log ++ [entry]).length then .error () (log ++ [entry])
      else .ok () (log ++ [entry]) := by
  have hcheck : write (some n) entry log =
      (if n < (log ++ [entry]).length then throw () else pure () : Writer Unit)
        (log ++ [entry]) := rfl
  rw [hcheck]
  split <;> rfl

/-- Without a limit, all entries are written. -/
theorem forM_write_none (es log : List Entry) :
    (forM es (write none) : Writer Unit) log = .ok () (log ++ es) := by
  induction es generalizing log with
  | nil => simp [pure, EStateM.pure]
  | cons e es ih => simp [bind_apply, write_none, ih]

/-- With a limit, they are written up to the first one beyond it. -/
theorem forM_write_some {n : Nat} (es log : List Entry) (hlog : log.length ≤ n) :
    (forM es (write (some n)) : Writer Unit) log =
      if n < (log ++ es).length then .error () ((log ++ es).take (n + 1))
      else .ok () (log ++ es) := by
  induction es generalizing log with
  | nil =>
      have : ¬n < (log ++ []).length := by simpa using hlog
      rw [if_neg this]
      simp [pure, EStateM.pure]
  | cons e es ih =>
      rw [List.forM_cons, bind_apply, write_some, List.append_cons log e es]
      by_cases h : n < (log ++ [e]).length
      · have hlast : (log ++ [e]).length = n + 1 := by
          simp at h ⊢
          omega
        have hfull : n < (log ++ [e] ++ es).length := by
          rw [List.length_append]
          omega
        rw [if_pos h, if_pos hfull, ← hlast, List.take_left]
      · rw [if_neg h]
        exact ih (log ++ [e]) (Nat.le_of_not_lt h)

/-! ## entries of parts -/

/-- Whether an entry is that of an identifier. -/
def Entry.isIdentifier : Entry → Bool
  | .reference _ _ => true
  | .localVariable _ _ => true
  | _ => false

end Outline

namespace Part

/-- The entry that is written on the way into a part. -/
def entry : Part → Outline.Entry
  | .scope body => .scope body.length
  | .statement s => .statement s.tag
  | .expression e => .expression e.form.tag

/-- The entry of the identifier that a part is. -/
def mention (p : Part) : List Outline.Entry :=
  (p.identifier?.map fun s => .ofIdentifier s.2 s.1).toList

/-- The entries of a part: that of its identifier is written inside. -/
def entries (skip : String → Bool) (p : Part) : List Outline.Entry :=
  p.entry :: if p.entered skip then p.mention else []

/-- The entries of a part and of what is in it. -/
def outline (skip : String → Bool) (p : Part) : List Outline.Entry :=
  (p.reached skip).flatMap (entries skip)

end Part

namespace Outline

variable (limit : Option Nat) (skip : String → Bool)

theorem visitor_around (p : Part) (inside : Writer Unit) :
    (visitor limit skip).around p inside = (do
      write limit p.entry
      if p.entered skip then inside else pure ()) := by
  cases p with
  | scope body => rfl
  | statement s =>
      cases h : skip s.tag <;> simp [Visitor.around, visitor, Part.entered, Part.entry, h]
  | expression e =>
      cases h : skip e.form.tag <;> simp [Visitor.around, visitor, Part.entered, Part.entry, h]

theorem visitor_leaf (p : Part) :
    (visitor limit skip).leaf p = forM p.mention (write limit) := by
  unfold Visitor.leaf Part.mention
  cases p.identifier? with
  | none => rfl
  | some s => simp [visitor]

/-- The traversal of a part writes the entries of the part. -/
theorem visitor_visitPart (p : Part) :
    (visitor limit skip).visitPart p = forM (p.outline skip) (write limit) := by
  have hentries (q : Part) :
      (do write limit q.entry
          if q.entered skip then (visitor limit skip).leaf q else pure ()) =
        forM (q.entries skip) (write limit) := by
    rw [Part.entries, List.forM_cons, visitor_leaf]
    split <;> rfl
  rw [Part.outline, forM_flatMap,
    Visitor.visitPart_eq_forM (fun _ _ => rfl) (visitor_around limit skip)]
  simp only [hentries]

/-- The entries of an outline are those of the body as a part, up to the
first one beyond the limit. -/
theorem of_eq (body : Scope) :
    of none skip body = ⟨(Part.scope body).outline skip, false⟩ ∧
    ∀ n, of (some n) skip body =
      if n < ((Part.scope body).outline skip).length then
        ⟨((Part.scope body).outline skip).take (n + 1), true⟩
      else ⟨(Part.scope body).outline skip, false⟩ := by
  have hvisit (limit : Option Nat) : (visitor limit skip).visitScope body =
      forM ((Part.scope body).outline skip) (write limit) :=
    visitor_visitPart limit skip (.scope body)
  constructor
  · simp [of, hvisit, EStateM.run, forM_write_none]
  · intro n
    have hrun := forM_write_some ((Part.scope body).outline skip) [] (Nat.zero_le n)
    simp only [of, hvisit, EStateM.run, hrun, List.nil_append]
    by_cases h : n < ((Part.scope body).outline skip).length
    · simp only [if_pos h]
    · simp only [if_neg h]

end Outline

/-! ## identifiers -/

namespace Part

/-- Identifiers have entries of their own, and these alone are counted as such. -/
theorem filter_isIdentifier_outline (p : Part) :
    (p.outline fun _ => false).filter Outline.Entry.isIdentifier =
      ((p.reached fun _ => false).filterMap identifier?).map fun s => .ofIdentifier s.2 s.1 := by
  have hentries (q : Part) :
      (q.entries fun _ => false).filter Outline.Entry.isIdentifier = q.mention := by
    have hentry : q.entry.isIdentifier = false := by cases q <;> rfl
    have hmention : q.mention.filter Outline.Entry.isIdentifier = q.mention := by
      unfold mention
      cases q.identifier? with
      | none => rfl
      | some s => obtain ⟨target, e⟩ := s; cases target <;> rfl
    simp [entries, hentry, hmention]
  rw [outline, List.filter_flatMap, List.map_filterMap, List.filterMap_eq_flatMap_toList]
  simp only [hentries]
  rfl

end Part

/-- A visitor that looks at identifiers only comes to every part and sees the
identifiers among them. -/
theorem Visitor.visitPart_identifiers {m : Type → Type} [Monad m] [LawfulMonad m]
    (see : Identifier → Expression → m Unit) (p : Part) :
    ({ identifier := see } : Visitor m).visitPart p =
      forM ((p.reached fun _ => false).filterMap Part.identifier?) fun s => see s.1 s.2 := by
  have haround (q : Part) (inside : m Unit) : ({ identifier := see } : Visitor m).around q inside =
      (pure () >>= fun _ : Unit => if q.entered fun _ => false then inside else pure ()) := by
    rw [Part.entered_all, pure_bind]
    cases q <;> rfl
  have hleaf (q : Part) : ({ identifier := see } : Visitor m).leaf q =
      forM q.identifier?.toList fun s => see s.1 s.2 := by
    unfold Visitor.leaf
    cases q.identifier? with
    | none => rfl
    | some s => simp
  rw [Visitor.visitPart_eq_forM (fun _ _ => rfl) haround, List.filterMap_eq_flatMap_toList,
    forM_flatMap]
  simp only [Part.entered_all, pure_bind, if_true, hleaf]

theorem forM_modify_append {α β : Type} (f : α → β) (xs : List α) (log : List β) :
    ((forM xs fun a => modify (· ++ [f a]) : StateM (List β) Unit).run log).2 =
      log ++ xs.map f := by
  induction xs generalizing log with
  | nil =>
      rw [List.map_nil, List.append_nil]
      rfl
  | cons x xs ih => simp [ih]

/-- The collected identifiers are those among the parts. -/
theorem Identifier.collector_visitPart (p : Part) :
    (Identifier.collector.visitPart p |>.run []).2 =
      ((p.reached fun _ => false).filterMap Part.identifier?).map Prod.fst := by
  have hvisit := Visitor.visitPart_identifiers
    (fun target _ => modify (· ++ [target]) : Identifier → Expression →
      StateM (List Identifier) Unit) p
  have hlog := forM_modify_append Prod.fst
    ((p.reached fun _ => false).filterMap Part.identifier?) []
  rw [← hvisit, List.nil_append] at hlog
  exact hlog

/-- The identifiers of a body are those among its parts. -/
theorem Scope.identifiers_eq (body : Scope) :
    body.identifiers =
      (((Part.scope body).reached fun _ => false).filterMap Part.identifier?).map Prod.fst :=
  Identifier.collector_visitPart (.scope body)

/-! ## limited outlines -/

/-- An outline without a limit ends on its own, and lists the entries of all
parts that are not inside one that is skipped, in the order of their paths.
With the limit `n`, the traversal stops after the first `n + 1` entries of it if
there are more than `n`; otherwise the limit makes no difference.  If nothing is
skipped, the entries of identifiers are what a visitor sees that looks at
identifiers only, in the same order: the identifiers among the parts of the
body, each once. -/
theorem Outline.of_limit (skip : String → Bool) (body : Scope) :
    let full := Outline.of none skip body
    full.stopped = false ∧
    (∃ parts, (Part.scope body).Lists skip parts ∧
      full.entries = parts.flatMap fun p => p.2.entries skip) ∧
    (∀ n, Outline.of (some n) skip body =
      if n < full.entries.length then ⟨full.entries.take (n + 1), true⟩
      else ⟨full.entries, false⟩) ∧
    ∃ parts, (Part.scope body).Lists (fun _ => false) parts ∧
      let seen := parts.filterMap fun p => p.2.identifier?
      (Outline.of none (fun _ => false) body).entries.filter Entry.isIdentifier =
        seen.map (fun s => Entry.ofIdentifier s.2 s.1) ∧
      body.identifiers = seen.map Prod.fst ∧
      ∀ (ε σ : Type) (see : Identifier → Expression → EStateM ε σ Unit),
        ({ identifier := see } : Visitor (EStateM ε σ)).visitScope body =
          forM seen fun s => see s.1 s.2 := by
  intro full
  obtain ⟨hfull, hlimited⟩ : full = _ ∧ _ := Outline.of_eq skip body
  have hentries : full.entries =
      ((Part.scope body).visits skip).flatMap fun p => p.2.entries skip := by
    rw [hfull, Part.outline, Part.reached, List.flatMap_map]
  have hseen : (((Part.scope body).visits fun _ => false).filterMap fun p => p.2.identifier?) =
      ((Part.scope body).reached fun _ => false).filterMap Part.identifier? := by
    rw [Part.reached, List.filterMap_map]
    rfl
  refine ⟨by rw [hfull], ⟨_, Part.lists_visits skip _, hentries⟩,
    fun n => by rw [hlimited n, hfull], _, Part.lists_visits _ _, ?_⟩
  simp only [hseen]
  refine ⟨?_, body.identifiers_eq, fun ε σ see => Visitor.visitPart_identifiers see (.scope body)⟩
  rw [(Outline.of_eq _ body).1]
  exact Part.filter_isIdentifier_outline (.scope body)

/-- The third entry is beyond the limit: the traversal stops at the tuple and
does not come to the items. -/
example :
    Outline.of (some 2) (fun _ => false)
      [.returnValue (.tuple [.int 1, .reference ⟨"Test", "F"⟩ .missing])] =
    ⟨[.scope 1, .statement "return", .expression "tuple"], true⟩ := by
  rfl

end CallGraphs
