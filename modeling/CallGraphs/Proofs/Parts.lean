import CallGraphs.Proofs.Exchange

/-!
# CallGraphs.Proofs.Parts

A body as a tree of parts.  Its scopes, statements and expressions are the
parts, and every part has a path from the root, which says at each step which
child comes next.  A traversal may leave out the inside of the statements and
expressions with certain tags.

* `Part.induction` — what holds of a part if it holds of its children;
* `Visitor.visitPart_eq` — a traversal visits the children of a part in order;
* `Part.mem_visits_iff`, `Part.pairwise_visits` — which parts come up, and in which order;
* `Visitor.visitPart_eq_forM` — a visitor that acts on the way in acts at these.
-/

namespace CallGraphs

/-! ## parts -/

/-- A part of a body. -/
inductive Part where
  | scope (body : Scope)
  | statement (s : Statement)
  | expression (e : Expression)

/-- The conditions and bodies of branches. -/
def Branches.parts : Branches → List Part
  | .done => []
  | .otherwise body => [.scope body]
  | .branch condition body rest => .expression condition :: .scope body :: rest.parts

/-- The expressions and scopes right below a statement. -/
def Statement.parts : Statement → List Part
  | .expression value => [.expression value]
  | .returnValue value => [.expression value]
  | .failWith value => [.expression value]
  | .bind _ value _ => [.expression value]
  | .assign _ value => [.expression value]
  | .conditional branches => branches.parts
  | .forLoop _ iterable body => [.expression iterable, .scope body]
  | .whileLoop condition body => [.expression condition, .scope body]
  | .repeatLoop body condition fixup => [.scope body, .expression condition, .scope fixup]
  | .conjugation outer inner => [.scope outer, .scope inner]
  | .qubitScope _ initializer body => [.expression initializer, .scope body]

namespace Part

/-- The parts right below a part, in the order of visits. -/
def children : Part → List Part
  | .scope body => body.map .statement
  | .statement s => s.parts
  | .expression e => e.form.operands.map fun o => .expression o.2

/-- The identifier that a part is, with its expression. -/
def identifier? : Part → Option (Identifier × Expression)
  | .scope _ => none
  | .statement _ => none
  | .expression e =>
    match e.form with
    | .identifier target => some (target, e)
    | _ => none

end Part

/-! ## children are smaller -/

theorem Branches.sizeOf_lt_of_mem_parts {c : Part} {branches : Branches}
    (h : c ∈ branches.parts) : sizeOf c < sizeOf branches + 1 := by
  induction branches using Branches.parts.induct with
  | case1 => simp [parts] at h
  | case2 body =>
      obtain rfl := List.mem_singleton.1 h
      simp
  | case3 condition body rest ih =>
      simp only [parts, List.mem_cons] at h
      obtain rfl | rfl | h := h
      · simp
        omega
      · simp
        omega
      · have := ih h
        simp
        omega

theorem Statement.sizeOf_lt_of_mem_parts {c : Part} {s : Statement} (h : c ∈ s.parts) :
    sizeOf c < sizeOf s + 1 := by
  cases s with
  | conditional branches =>
      have := Branches.sizeOf_lt_of_mem_parts h
      simp
      omega
  | _ =>
      simp only [parts, List.mem_cons, List.not_mem_nil, or_false] at h
      rcases h with rfl | rfl | rfl <;> simp <;> omega

theorem Form.sizeOf_lt_of_mem_operands {form : Form} {o : Role × Expression}
    (h : o ∈ form.operands) : sizeOf o.2 < sizeOf form := by
  cases form with
  | literal value => simp [operands] at h
  | identifier target => simp [operands] at h
  | tuple items =>
      obtain ⟨e, he, rfl⟩ := List.mem_map.1 h
      have := List.sizeOf_lt_of_mem he
      simp
      omega
  | array items =>
      obtain ⟨e, he, rfl⟩ := List.mem_map.1 h
      have := List.sizeOf_lt_of_mem he
      simp
      omega
  | _ =>
      simp only [operands, List.mem_cons, List.not_mem_nil, or_false] at h
      rcases h with rfl | rfl | rfl <;> simp <;> omega

namespace Part

theorem sizeOf_lt_of_mem_children {p c : Part} (h : c ∈ p.children) : sizeOf c < sizeOf p := by
  cases p with
  | scope body =>
      obtain ⟨s, hs, rfl⟩ := List.mem_map.1 h
      have := List.sizeOf_lt_of_mem hs
      simp
      omega
  | statement s =>
      have := Statement.sizeOf_lt_of_mem_parts h
      simp
      omega
  | expression e =>
      obtain ⟨form, type, map⟩ := e
      obtain ⟨o, ho, rfl⟩ := List.mem_map.1 h
      have : sizeOf o.2 < sizeOf form := Form.sizeOf_lt_of_mem_operands ho
      simp
      omega

/-- What holds of a part if it holds of its children holds of all parts. -/
theorem induction {motive : Part → Prop}
    (step : ∀ p, (∀ c ∈ p.children, motive c) → motive p) (p : Part) : motive p :=
  step p fun c _ => induction step c
termination_by sizeOf p
decreasing_by exact sizeOf_lt_of_mem_children ‹_›

end Part

/-! ## traversals of a part -/

namespace Visitor

variable {m : Type → Type} [Monad m]

/-- Visit a part. -/
def visitPart (v : Visitor m) : Part → m Unit
  | .scope body => v.visitScope body
  | .statement s => v.visitStatement s
  | .expression e => v.visitExpression e

/-- What a visitor does around the inside of a part. -/
def around (v : Visitor m) : Part → m Unit → m Unit
  | .scope body => v.scope body
  | .statement s => v.statement s
  | .expression e => v.expression e

/-- What a visitor does at a part that is an identifier. -/
def leaf (v : Visitor m) (p : Part) : m Unit :=
  match p.identifier? with
  | none => pure ()
  | some (target, e) => v.identifier target e

variable (v : Visitor m)

theorem visitStatements_eq (body : Scope) :
    v.visitStatements body = forM (body.map Part.statement) v.visitPart := by
  induction body with
  | nil => rfl
  | cons s rest ih => rw [visitStatements_cons, ih, List.map_cons, List.forM_cons, visitPart]

theorem visitItems_eq (items : List Expression) :
    v.visitItems items = forM items fun e => v.operand .value (v.visitExpression e) := by
  induction items with
  | nil => rfl
  | cons e es ih => rw [visitItems, ih, List.forM_cons]

variable [LawfulMonad m]

theorem visitBranches_eq (branches : Branches) :
    v.visitBranches branches = forM branches.parts v.visitPart := by
  induction branches using Branches.parts.induct with
  | case1 => rfl
  | case2 body => simp [visitBranches, Branches.parts, visitPart, visitScope]
  | case3 condition body rest ih =>
      simp [visitBranches, Branches.parts, visitPart, visitScope, ih]

theorem visitParts_eq (s : Statement) : v.visitParts s = forM s.parts v.visitPart := by
  cases s with
  | conditional branches => exact v.visitBranches_eq branches
  | _ => simp [visitParts, Statement.parts, visitPart, visitScope]

/-- The operands of a form are visited in order, after the identifier if the
form is one. -/
theorem visitForm_eq (e : Expression) :
    v.visitForm e e.form = (do
      v.leaf (.expression e)
      forM e.form.operands fun o => v.operand o.1 (v.visitExpression o.2)) := by
  obtain ⟨form, type, map⟩ := e
  cases form with
  | tuple items => simp [visitForm, leaf, Part.identifier?, Form.operands, visitItems_eq]
  | array items => simp [visitForm, leaf, Part.identifier?, Form.operands, visitItems_eq]
  | _ => simp [visitForm, leaf, Part.identifier?, Form.operands]

/-- A visitor to which the role of an operand is all the same visits a part by
what it does around and at it, and then its children in order. -/
theorem visitPart_eq (h : ∀ role action, v.operand role action = action) (p : Part) :
    v.visitPart p = v.around p (do v.leaf p; forM p.children v.visitPart) := by
  cases p with
  | scope body =>
      rw [visitPart, visitScope, visitStatements_eq]
      simp [around, leaf, Part.identifier?, Part.children]
  | statement s =>
      rw [visitPart, visitStatement, visitParts_eq]
      simp [around, leaf, Part.identifier?, Part.children]
  | expression e =>
      have hform := v.visitForm_eq e
      simp only [h] at hform
      simp only [around, Part.children, List.forM_map, visitPart]
      rw [← hform]
      obtain ⟨form, type, map⟩ := e
      rfl

end Visitor

/-! ## the parts that come up -/

namespace Part

variable {skip : String → Bool} {p q : Part} {path : List Nat}

/-- Whether a part is entered by a traversal that stays outside the tags of
which `skip` holds. -/
def entered (skip : String → Bool) : Part → Bool
  | .scope _ => true
  | .statement s => !skip s.tag
  | .expression e => !skip e.form.tag

/-- A traversal that stays outside no tag enters every part. -/
@[simp] theorem entered_all (p : Part) : (p.entered fun _ => false) = true := by
  cases p <;> rfl

/-- The part at the end of a path that goes inside no part with such a tag. -/
def at? (skip : String → Bool) : Part → List Nat → Option Part
  | p, [] => some p
  | p, i :: path =>
    if p.entered skip then p.children[i]?.bind fun c => c.at? skip path else none

/-- A list of the parts that such a traversal comes to, each with its path: all
parts at the ends of paths, in the order of the paths. -/
structure Lists (skip : String → Bool) (p : Part) (parts : List (List Nat × Part)) : Prop where
  sorted : (parts.map Prod.fst).Pairwise (· < ·)
  mem_iff : ∀ path q, (path, q) ∈ parts ↔ p.at? skip path = some q

/-- The parts that a traversal comes to, each with its path. -/
def visits (skip : String → Bool) (p : Part) : List (List Nat × Part) :=
  ([], p) :: if p.entered skip then
      p.children.attach.zipIdx.flatMap fun c => (visits skip c.1.1).map (Prod.map (c.2 :: ·) id)
    else []
termination_by sizeOf p
decreasing_by exact sizeOf_lt_of_mem_children c.1.2

/-- The parts that a traversal comes to, in order. -/
def reached (skip : String → Bool) (p : Part) : List Part := (p.visits skip).map Prod.snd

theorem visits_eq (skip : String → Bool) (p : Part) :
    p.visits skip = ([], p) :: if p.entered skip then
      p.children.zipIdx.flatMap fun c => (c.1.visits skip).map (Prod.map (c.2 :: ·) id)
    else [] := by
  have hchildren : p.children.zipIdx =
      p.children.attach.zipIdx.map (Prod.map Subtype.val id) := by
    rw [← List.zipIdx_map, List.attach_map_subtype_val]
  rw [visits, hchildren, List.flatMap_map]
  rfl

theorem reached_eq (skip : String → Bool) (p : Part) :
    p.reached skip =
      p :: if p.entered skip then p.children.flatMap (reached skip) else [] := by
  have hchildren : p.children.flatMap (reached skip) =
      p.children.zipIdx.flatMap fun c => c.1.reached skip := by
    conv_lhs => rw [← List.zipIdx_map_fst 0 p.children, List.flatMap_map]
  rw [reached, visits_eq, List.map_cons, hchildren]
  split <;> simp [List.map_flatMap, reached, Function.comp_def]

/-- The parts that come up are those at the ends of paths. -/
theorem mem_visits_iff : (path, q) ∈ p.visits skip ↔ p.at? skip path = some q := by
  induction path generalizing p with
  | nil =>
      rw [visits_eq]
      split <;> simp [at?, eq_comm]
  | cons i path ih =>
      rw [visits_eq]
      by_cases h : p.entered skip = true
      · simp [at?, h, ih, List.mem_zipIdx_iff_getElem?, Option.bind_eq_some_iff]
      · simp [at?, h]

theorem paths_eq (skip : String → Bool) (p : Part) :
    (p.visits skip).map Prod.fst = [] :: if p.entered skip then
      p.children.zipIdx.flatMap fun c => ((c.1.visits skip).map Prod.fst).map (c.2 :: ·)
    else [] := by
  rw [visits_eq, List.map_cons]
  split <;> simp [List.map_flatMap, Function.comp_def]

/-- The parts come up in the order of their paths, and so none does twice. -/
theorem pairwise_visits (p : Part) (skip : String → Bool) :
    ((p.visits skip).map Prod.fst).Pairwise (· < ·) := by
  induction p using induction with
  | step p ih =>
      have hinside (c : Part × Nat) (hc : c ∈ p.children.zipIdx) :
          (((c.1.visits skip).map Prod.fst).map (c.2 :: ·)).Pairwise (· < ·) := by
        have hmem : c.1 ∈ p.children := (List.mem_zipIdx hc).2.2 ▸ List.getElem_mem _
        refine List.pairwise_map.2 ((ih c.1 hmem).imp fun hlt => ?_)
        exact List.cons_lt_cons_iff.2 (.inr ⟨rfl, hlt⟩)
      -- paths into different children differ in their first steps
      have hapart : p.children.zipIdx.Pairwise fun c c' =>
          ∀ path ∈ ((c.1.visits skip).map Prod.fst).map (c.2 :: ·),
          ∀ path' ∈ ((c'.1.visits skip).map Prod.fst).map (c'.2 :: ·), path < path' := by
        have hindices : (p.children.zipIdx.map Prod.snd).Pairwise (· < ·) := by
          rw [List.zipIdx_map_snd]
          exact List.pairwise_lt_range'
        refine (List.pairwise_map.1 hindices).imp fun hlt path hpath path' hpath' => ?_
        obtain ⟨_, -, rfl⟩ := List.mem_map.1 hpath
        obtain ⟨_, -, rfl⟩ := List.mem_map.1 hpath'
        exact List.cons_lt_cons_iff.2 (.inl hlt)
      rw [paths_eq, List.pairwise_cons]
      split
      · have hroot (path : List Nat) (hpath : path ∈ p.children.zipIdx.flatMap fun c =>
            ((c.1.visits skip).map Prod.fst).map (c.2 :: ·)) : [] < path := by
          obtain ⟨c, -, hpath⟩ := List.mem_flatMap.1 hpath
          obtain ⟨_, -, rfl⟩ := List.mem_map.1 hpath
          exact List.nil_lt_cons _ _
        exact ⟨hroot, List.pairwise_flatMap.2 ⟨hinside, hapart⟩⟩
      · simp

theorem lists_visits (skip : String → Bool) (p : Part) : p.Lists skip (p.visits skip) where
  sorted := p.pairwise_visits skip
  mem_iff _ _ := mem_visits_iff

end Part

/-! ## traversals on the way in -/

theorem forM_flatMap {m : Type → Type} [Monad m] [LawfulMonad m] {α β : Type} (xs : List α)
    (f : α → List β) (g : β → m Unit) : forM (xs.flatMap f) g = forM xs fun a => forM (f a) g := by
  induction xs with
  | nil => rfl
  | cons x xs ih => rw [List.flatMap_cons, List.forM_append, List.forM_cons, ih]

/-- A visitor that acts on the way into a part, and goes inside unless `skip`
holds of its tag, acts once at every part that comes up, in order. -/
theorem Visitor.visitPart_eq_forM {m : Type → Type} [Monad m] [LawfulMonad m] {v : Visitor m}
    {skip : String → Bool} {act : Part → m Unit}
    (hoperand : ∀ role inside, v.operand role inside = inside)
    (haround : ∀ p inside, v.around p inside = (do
      act p
      if p.entered skip then inside else pure ())) (p : Part) :
    v.visitPart p = forM (p.reached skip) fun q => (do
      act q
      if q.entered skip then v.leaf q else pure ()) := by
  induction p using Part.induction with
  | step p ih =>
      have hchildren := forM_eq_of_map_eq (List.map_congr_left ih)
      rw [← forM_flatMap] at hchildren
      rw [visitPart_eq v hoperand, haround, Part.reached_eq, List.forM_cons, hchildren]
      split <;> simp

end CallGraphs
