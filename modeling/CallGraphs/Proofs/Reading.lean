import CallGraphs.Proofs.References

/-!
# CallGraphs.Proofs.Reading

What a traversal does at the references of a body.  A relation between steps
of a traversal and lists of references that is kept when steps are put one
after the other, into an operand or into an expression holds of the whole
traversal and the references read off the tree.

* `Reads.visitExpression` — for expressions, where a relation has to follow
  the way down to each reference;
* `ReadsRoots.visitScope` — for bodies, from their root expressions;
* `map_name_references` — the references stand in the order in which the
  traversal reports identifiers;
* `frames_of_mem_references` — the innermost frame of a reference is its own.
-/

namespace CallGraphs

/-! ## reading a traversal -/

/-- A relation between steps of a traversal and the references they come
upon, which holds of the parts of an expression whatever they are put into. -/
structure Visitor.Reads {m : Type → Type} [Monad m] (v : Visitor m)
    (P : m Unit → List Reference → Prop) : Prop where
  nil : P (pure ()) []
  append : ∀ {x y : m Unit} {rs rs' : List Reference}, P x rs → P y rs' →
    P (do x; y) (rs ++ rs')
  operand : ∀ (role : Role) {x : m Unit} {rs : List Reference}, P x rs →
    P (v.operand role x) (rs.map (·.under role))
  expression : ∀ (e : Expression) {x : m Unit} {rs : List Reference}, P x rs →
    P (v.expression e x) (rs.mapIdx fun i r => r.within e.resolutions i)
  identifier : ∀ (target : Identifier) (e : Expression),
    P (v.identifier target e) (Form.references (.identifier target))

/-- The same for whole expressions and what they are put into. -/
structure Visitor.ReadsRoots {m : Type → Type} [Monad m] (v : Visitor m)
    (P : m Unit → List Reference → Prop) : Prop where
  nil : P (pure ()) []
  append : ∀ {x y : m Unit} {rs rs' : List Reference}, P x rs → P y rs' →
    P (do x; y) (rs ++ rs')
  root : ∀ e : Expression, P (v.visitExpression e) e.references
  statement : ∀ (s : Statement) {x : m Unit} {rs : List Reference}, P x rs →
    P (v.statement s x) rs
  scope : ∀ (body : Scope) {x : m Unit} {rs : List Reference}, P x rs → P (v.scope body x) rs

namespace Visitor

variable {m : Type → Type} [Monad m] {v : Visitor m} {P : m Unit → List Reference → Prop}

mutual

/-- A relation that holds of the parts holds of an expression. -/
theorem Reads.visitExpression (h : v.Reads P) :
    (e : Expression) → P (v.visitExpression e) e.references
  | ⟨form, type, resolutions⟩ => h.expression ⟨form, type, resolutions⟩ (h.visitForm _ form)

/-- A relation that holds of the parts holds of a form. -/
theorem Reads.visitForm (h : v.Reads P) (e : Expression) :
    (form : Form) → P (v.visitForm e form) form.references
  | .literal _ => h.nil
  | .identifier target => h.identifier target e
  | .tuple items => h.visitItems items
  | .array items => h.visitItems items
  | .sizedArray value size =>
      h.append (h.operand .value (h.visitExpression value))
        (h.operand .value (h.visitExpression size))
  | .range start stop =>
      h.append (h.operand .value (h.visitExpression start))
        (h.operand .value (h.visitExpression stop))
  | .steppedRange start step stop =>
      h.append (h.operand .value (h.visitExpression start))
        (h.append (h.operand .value (h.visitExpression step))
          (h.operand .value (h.visitExpression stop)))
  | .item array index =>
      h.append (h.operand .value (h.visitExpression array))
        (h.operand .value (h.visitExpression index))
  | .field record _ => h.operand .value (h.visitExpression record)
  | .update source accessor value =>
      h.append (h.operand .value (h.visitExpression source))
        (h.append (h.operand .value (h.visitExpression accessor))
          (h.operand .value (h.visitExpression value)))
  | .unary _ operand => h.operand .value (h.visitExpression operand)
  | .binary _ left right =>
      h.append (h.operand .value (h.visitExpression left))
        (h.operand .value (h.visitExpression right))
  | .conditional condition ifTrue ifFalse =>
      h.append (h.operand .value (h.visitExpression condition))
        (h.append (h.operand .carried (h.visitExpression ifTrue))
          (h.operand .carried (h.visitExpression ifFalse)))
  | .unwrap operand => h.operand .carried (h.visitExpression operand)
  | .adjoint operand => h.operand .adjoint (h.visitExpression operand)
  | .controlled operand => h.operand .controlled (h.visitExpression operand)
  | .call callee argument =>
      h.append (h.operand .callee (h.visitExpression callee))
        (h.operand .value (h.visitExpression argument))

/-- A relation that holds of the parts holds of a list of items. -/
theorem Reads.visitItems (h : v.Reads P) :
    (items : List Expression) → P (v.visitItems items) (Expression.itemReferences items)
  | [] => h.nil
  | e :: es => h.append (h.operand .value (h.visitExpression e)) (h.visitItems es)

end

mutual

/-- A relation that holds of root expressions holds of the parts of a
statement. -/
theorem ReadsRoots.visitParts (h : v.ReadsRoots P) :
    (s : Statement) → P (v.visitParts s) s.references
  | .expression value => h.root value
  | .returnValue value => h.root value
  | .failWith value => h.root value
  | .bind _ value _ => h.root value
  | .assign _ value => h.root value
  | .conditional branches => h.visitBranches branches
  | .forLoop _ iterable body =>
      h.append (h.root iterable) (h.scope body (h.visitStatements body))
  | .whileLoop condition body =>
      h.append (h.root condition) (h.scope body (h.visitStatements body))
  | .repeatLoop body condition fixup =>
      h.append (h.scope body (h.visitStatements body))
        (h.append (h.root condition) (h.scope fixup (h.visitStatements fixup)))
  | .conjugation outer inner =>
      h.append (h.scope outer (h.visitStatements outer))
        (h.scope inner (h.visitStatements inner))
  | .qubitScope _ initializer body =>
      h.append (h.root initializer) (h.scope body (h.visitStatements body))

/-- A relation that holds of root expressions holds of the branches of a
conditional statement. -/
theorem ReadsRoots.visitBranches (h : v.ReadsRoots P) :
    (branches : Branches) → P (v.visitBranches branches) branches.references
  | .done => h.nil
  | .otherwise body => h.scope body (h.visitStatements body)
  | .branch condition body rest =>
      h.append (h.root condition)
        (h.append (h.scope body (h.visitStatements body)) (h.visitBranches rest))

/-- A relation that holds of root expressions holds of the statements of a
scope. -/
theorem ReadsRoots.visitStatements (h : v.ReadsRoots P) :
    (body : List Statement) → P (v.visitStatements body) (Scope.references body)
  | [] => h.nil
  | s :: rest => h.append (h.statement s (h.visitParts s)) (h.visitStatements rest)

end

/-- A relation that holds of root expressions holds of a body. -/
theorem ReadsRoots.visitScope (h : v.ReadsRoots P) (body : Scope) :
    P (v.visitScope body) body.references :=
  h.scope body (h.visitStatements body)

end Visitor

/-! ## the order of identifiers -/

/-- The callable that an identifier names, if it is no local variable. -/
def Identifier.callable? : Identifier → Option QualifiedName
  | .callable name => some name
  | .localVariable _ => none

namespace Identifier

/-- A step of the collector finds the names of the given references, in
their order. -/
def Finds (x : StateM (List Identifier) Unit) (rs : List Reference) : Prop :=
  ∀ found, (x found).2.filterMap callable? = found.filterMap callable? ++ rs.map (·.name)

theorem Finds.append {x y : StateM (List Identifier) Unit} {rs rs' : List Reference}
    (hx : Finds x rs) (hy : Finds y rs') : Finds (do x; y) (rs ++ rs') := by
  intro found
  show (y (x found).2).2.filterMap callable? = _
  rw [hy, hx, List.map_append, List.append_assoc]

theorem collector_reads : collector.Reads Finds where
  nil found := (List.append_nil _).symm
  append hx hy := hx.append hy
  operand role x rs h found := by
    rw [List.map_map]
    exact h found
  expression e x rs h found := by
    have hnames : (rs.mapIdx fun i r => r.within e.resolutions i).map (·.name) = rs.map (·.name) :=
      List.ext_getElem (by simp) (by simp)
    rw [hnames]
    exact h found
  identifier target e found := by
    show (found ++ [target]).filterMap callable? = _
    cases target <;> simp [Form.references, callable?, Reference.bare]

theorem collector_readsRoots : collector.ReadsRoots Finds where
  nil := collector_reads.nil
  append hx hy := hx.append hy
  root := collector_reads.visitExpression
  statement _ _ _ h := h
  scope _ _ _ h := h

end Identifier

/-- The references of a body are its identifiers that name callables, in the
order of the traversal. -/
theorem Scope.map_name_references (body : Scope) :
    body.references.map (·.name) = body.identifiers.filterMap Identifier.callable? := by
  have h := Identifier.collector_readsRoots.visitScope body []
  rw [List.filterMap_nil, List.nil_append] at h
  exact h.symm

/-! ## own frames -/

namespace Reference

/-- References have frames of their own if the innermost expression around
each of them holds no reference before it. -/
def OwnFrames (rs : List Reference) : Prop :=
  ∀ r ∈ rs, ∃ own outer, r.frames = ⟨own, 0⟩ :: outer

variable {rs rs' : List Reference}

theorem ownFrames_nil : OwnFrames [] := fun _ h => absurd h List.not_mem_nil

theorem OwnFrames.append (h : OwnFrames rs) (h' : OwnFrames rs') : OwnFrames (rs ++ rs') :=
  fun r hr => (List.mem_append.1 hr).elim (h r) (h' r)

theorem OwnFrames.under (role : Role) (h : OwnFrames rs) : OwnFrames (rs.map (·.under role)) := by
  intro r hr
  obtain ⟨inner, hinner, rfl⟩ := List.mem_map.1 hr
  exact h inner hinner

theorem OwnFrames.within (map : Substitution) (h : OwnFrames rs) :
    OwnFrames (rs.mapIdx fun i r => r.within map i) := by
  intro r hr
  obtain ⟨i, hi, rfl⟩ := List.mem_mapIdx.1 hr
  obtain ⟨own, outer, hframes⟩ := h rs[i] (List.getElem_mem hi)
  exact ⟨own, outer ++ [⟨map, i⟩], by simp [Reference.within, hframes]⟩

end Reference

namespace Expression

open Reference

mutual

/-- The innermost frame of a reference is that of the reference itself. -/
theorem ownFrames : (e : Expression) → OwnFrames e.references
  | ⟨.identifier (.callable name), _, map⟩ => fun r hr => by
      obtain rfl := List.mem_singleton.1 hr
      exact ⟨map, [], rfl⟩
  | ⟨.identifier (.localVariable _), _, _⟩ => ownFrames_nil
  | ⟨.literal _, _, _⟩ => ownFrames_nil
  | ⟨.tuple items, _, map⟩ => (ownFrames_items items).within map
  | ⟨.array items, _, map⟩ => (ownFrames_items items).within map
  | ⟨.sizedArray value size, _, map⟩ =>
      ((ownFrames value).under .value |>.append ((ownFrames size).under .value)).within map
  | ⟨.range start stop, _, map⟩ =>
      ((ownFrames start).under .value |>.append ((ownFrames stop).under .value)).within map
  | ⟨.steppedRange start step stop, _, map⟩ =>
      ((ownFrames start).under .value |>.append
        ((ownFrames step).under .value |>.append ((ownFrames stop).under .value))).within map
  | ⟨.item array index, _, map⟩ =>
      ((ownFrames array).under .value |>.append ((ownFrames index).under .value)).within map
  | ⟨.field record _, _, map⟩ => ((ownFrames record).under .value).within map
  | ⟨.update source accessor value, _, map⟩ =>
      ((ownFrames source).under .value |>.append
        ((ownFrames accessor).under .value |>.append ((ownFrames value).under .value))).within map
  | ⟨.unary _ operand, _, map⟩ => ((ownFrames operand).under .value).within map
  | ⟨.binary _ left right, _, map⟩ =>
      ((ownFrames left).under .value |>.append ((ownFrames right).under .value)).within map
  | ⟨.conditional condition ifTrue ifFalse, _, map⟩ =>
      ((ownFrames condition).under .value |>.append
        ((ownFrames ifTrue).under .carried |>.append
          ((ownFrames ifFalse).under .carried))).within map
  | ⟨.unwrap operand, _, map⟩ => ((ownFrames operand).under .carried).within map
  | ⟨.adjoint operand, _, map⟩ => ((ownFrames operand).under .adjoint).within map
  | ⟨.controlled operand, _, map⟩ => ((ownFrames operand).under .controlled).within map
  | ⟨.call callee argument, _, map⟩ =>
      ((ownFrames callee).under .callee |>.append ((ownFrames argument).under .value)).within map

theorem ownFrames_items : (items : List Expression) → OwnFrames (itemReferences items)
  | [] => ownFrames_nil
  | e :: es => ((ownFrames e).under .value).append (ownFrames_items es)

end

end Expression

/-- The innermost frame of a reference in a body is that of the reference
itself. -/
theorem Scope.frames_of_mem_references {body : Scope} {r : Reference} (hr : r ∈ body.references) :
    ∃ own outer, r.frames = ⟨own, 0⟩ :: outer := by
  have hreads : Identifier.collector.ReadsRoots fun _ rs => Reference.OwnFrames rs :=
    { nil := Reference.ownFrames_nil
      append := .append
      root := Expression.ownFrames
      statement := fun _ _ _ h => h
      scope := fun _ _ _ h => h }
  exact hreads.visitScope body r hr

end CallGraphs
