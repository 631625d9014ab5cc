import CallGraphs.Proofs.Uses
import Mathlib.Data.List.Basic

/-!
# CallGraphs.Proofs.Exchange

A conditional expression with its two branches exchanged, anywhere in a body.
The walk visits one branch after the other over the same stack, so what waits
goes to the first reference of the branch that comes first, and the other
branch goes without.

* `Form.operands`, `Form.setOperand` — the operands of a form, and one of them replaced;
* `Expression.Exchanged`, `Scope.Exchanged` — the exchange, with what waits for the branches;
* `Scope.Exchanged.uses` — what it does to the uses in the body;
* `Walk.body_exchanged` — and what to the walk;
* `Walk.exchange_refused` — a body that is walked one way round only.
-/

namespace CallGraphs

/-! ## parts of lists -/

/-- The list `ys` is `xs` with the part `old` replaced by `new`. -/
def Splice {α : Type} (old new xs ys : List α) : Prop :=
  ∃ before after, xs = before ++ (old ++ after) ∧ ys = before ++ (new ++ after)

namespace Splice

variable {α β : Type} {old new old' new' xs ys : List α}

theorem self (old new : List α) : Splice old new old new := ⟨[], [], by simp, by simp⟩

theorem prepend (zs : List α) (h : Splice old new xs ys) :
    Splice old new (zs ++ xs) (zs ++ ys) := by
  obtain ⟨before, after, rfl, rfl⟩ := h
  exact ⟨zs ++ before, after, by simp, by simp⟩

theorem append (zs : List α) (h : Splice old new xs ys) :
    Splice old new (xs ++ zs) (ys ++ zs) := by
  obtain ⟨before, after, rfl, rfl⟩ := h
  exact ⟨before, after ++ zs, by simp, by simp⟩

theorem trans (h : Splice old new old' new') (h' : Splice old' new' xs ys) :
    Splice old new xs ys := by
  obtain ⟨before, after, rfl, rfl⟩ := h'
  exact (h.append after).prepend before

theorem map (f : α → β) (h : Splice old new xs ys) :
    Splice (old.map f) (new.map f) (xs.map f) (ys.map f) := by
  obtain ⟨before, after, rfl, rfl⟩ := h
  exact ⟨before.map f, after.map f, by simp, by simp⟩

theorem length_eq (h : Splice old new xs ys) (hlength : old.length = new.length) :
    xs.length = ys.length := by
  obtain ⟨before, after, rfl, rfl⟩ := h
  simp [hlength]

end Splice

/-! ## operands -/

namespace Form

/-- The operands of a form with their roles, in the order of visits. -/
def operands : Form → List (Role × Expression)
  | .literal _ => []
  | .identifier _ => []
  | .tuple items => items.map (Role.value, ·)
  | .array items => items.map (Role.value, ·)
  | .sizedArray value size => [(.value, value), (.value, size)]
  | .range start stop => [(.value, start), (.value, stop)]
  | .steppedRange start step stop => [(.value, start), (.value, step), (.value, stop)]
  | .item values index => [(.value, values), (.value, index)]
  | .field record _ => [(.value, record)]
  | .update source accessor value => [(.value, source), (.value, accessor), (.value, value)]
  | .unary _ operand => [(.value, operand)]
  | .binary _ left right => [(.value, left), (.value, right)]
  | .conditional condition ifTrue ifFalse =>
    [(.value, condition), (.carried, ifTrue), (.carried, ifFalse)]
  | .unwrap operand => [(.carried, operand)]
  | .adjoint operand => [(.adjoint, operand)]
  | .controlled operand => [(.controlled, operand)]
  | .call callee argument => [(.callee, callee), (.value, argument)]

/-- The same form with every operand changed by a function of its number. -/
def mapOperands (f : Nat → Expression → Expression) : Form → Form
  | .literal value => .literal value
  | .identifier target => .identifier target
  | .tuple items => .tuple (items.mapIdx f)
  | .array items => .array (items.mapIdx f)
  | .sizedArray value size => .sizedArray (f 0 value) (f 1 size)
  | .range start stop => .range (f 0 start) (f 1 stop)
  | .steppedRange start step stop => .steppedRange (f 0 start) (f 1 step) (f 2 stop)
  | .item values index => .item (f 0 values) (f 1 index)
  | .field record name => .field (f 0 record) name
  | .update source accessor value => .update (f 0 source) (f 1 accessor) (f 2 value)
  | .unary operator operand => .unary operator (f 0 operand)
  | .binary operator left right => .binary operator (f 0 left) (f 1 right)
  | .conditional condition ifTrue ifFalse =>
    .conditional (f 0 condition) (f 1 ifTrue) (f 2 ifFalse)
  | .unwrap operand => .unwrap (f 0 operand)
  | .adjoint operand => .adjoint (f 0 operand)
  | .controlled operand => .controlled (f 0 operand)
  | .call callee argument => .call (f 0 callee) (f 1 argument)

/-- The same form with another expression as its operand of the given number. -/
def setOperand (form : Form) (i : Nat) (e : Expression) : Form :=
  form.mapOperands fun j operand => if j = i then e else operand

theorem operands_mapOperands (f : Nat → Expression → Expression) (form : Form) :
    (form.mapOperands f).operands = form.operands.mapIdx fun i o => (o.1, f i o.2) := by
  cases form <;> simp [mapOperands, operands, List.mapIdx_eq_zipIdx_map, List.zipIdx_map]

variable {form : Form} {i : Nat} {role : Role} {e : Expression}

/-- The operands before and after one of them. -/
theorem operands_eq_of_getElem? (h : form.operands[i]? = some (role, e)) :
    form.operands = form.operands.take i ++ (role, e) :: form.operands.drop (i + 1) := by
  obtain ⟨hi, hget⟩ := List.getElem?_eq_some_iff.1 h
  rw [← hget, List.getElem_cons_drop, List.take_append_drop]

/-- Only the operand of the given number is replaced. -/
theorem operands_setOperand (h : form.operands[i]? = some (role, e)) (e' : Expression) :
    (form.setOperand i e').operands =
      form.operands.take i ++ (role, e') :: form.operands.drop (i + 1) := by
  obtain ⟨hi, hget⟩ := List.getElem?_eq_some_iff.1 h
  have hset : (form.setOperand i e').operands = form.operands.set i (role, e') := by
    rw [setOperand, operands_mapOperands]
    refine List.ext_getElem (by simp) fun j hj _ => ?_
    rw [List.getElem_mapIdx, List.getElem_set]
    by_cases hji : j = i
    · subst hji
      simp [hget]
    · simp [hji, Ne.symm hji]
  rw [hset, List.set_eq_take_append_cons_drop, if_pos hi]

end Form

/-- The references in operands, in the order of visits. -/
def operandReferences (os : List (Role × Expression)) : List Reference :=
  os.flatMap fun o => o.2.references.map (·.under o.1)

theorem itemReferences_eq (items : List Expression) :
    Expression.itemReferences items = operandReferences (items.map (Role.value, ·)) := by
  induction items with
  | nil => rfl
  | cons e es ih =>
      rw [Expression.itemReferences, ih]
      rfl

/-- The references in a form with operands are those in its operands. -/
theorem Form.references_eq_of_operands {form : Form} (h : form.operands ≠ []) :
    form.references = operandReferences form.operands := by
  cases form with
  | literal value => rfl
  | identifier target => exact absurd rfl h
  | tuple items => exact itemReferences_eq items
  | array items => exact itemReferences_eq items
  | _ => simp [Form.references, Form.operands, operandReferences]

/-! ## the exchange -/

/-- An expression with the branches `ifTrue` and `ifFalse` of one conditional
expression in it exchanged.  It is entered with a stack, and `waiting` is what
waits when the walk comes to the first of the two branches. -/
inductive Expression.Exchanged (ifTrue ifFalse : Expression) (waiting : Substitution.Stack) :
    Substitution.Stack → Expression → Expression → Prop
  /-- The expression is the conditional expression. -/
  | branches {condition : Expression} {type : Ty} {map : Substitution} {stack : Substitution.Stack}
      (h : waiting = Walk.left (stack.push map) condition.references) :
      Exchanged ifTrue ifFalse waiting stack ⟨.conditional condition ifTrue ifFalse, type, map⟩
        ⟨.conditional condition ifFalse ifTrue, type, map⟩
  /-- It stands in an operand, which finds what the operands before it left. -/
  | operand {form : Form} {type : Ty} {map : Substitution} {stack : Substitution.Stack}
      {role : Role} {e e' : Expression} (i : Nat) (hi : form.operands[i]? = some (role, e))
      (h : Exchanged ifTrue ifFalse waiting
        (Walk.left (stack.push map) (operandReferences (form.operands.take i))) e e') :
      Exchanged ifTrue ifFalse waiting stack ⟨form, type, map⟩ ⟨form.setOperand i e', type, map⟩

mutual

/-- A statement with the expression `e`, the root of one of its expressions,
replaced by `e'`. -/
inductive Statement.Replaced (e e' : Expression) : Statement → Statement → Prop
  | expression : Statement.Replaced e e' (.expression e) (.expression e')
  | returnValue : Statement.Replaced e e' (.returnValue e) (.returnValue e')
  | failWith : Statement.Replaced e e' (.failWith e) (.failWith e')
  | bind {name : String} {mutable : Bool} :
      Statement.Replaced e e' (.bind name e mutable) (.bind name e' mutable)
  | assign {name : String} : Statement.Replaced e e' (.assign name e) (.assign name e')
  | conditional {branches branches' : Branches} (h : Branches.Replaced e e' branches branches') :
      Statement.Replaced e e' (.conditional branches) (.conditional branches')
  | forIterable {name : String} {body : Scope} :
      Statement.Replaced e e' (.forLoop name e body) (.forLoop name e' body)
  | forBody {name : String} {iterable : Expression} {body body' : Scope}
      (h : Scope.Replaced e e' body body') :
      Statement.Replaced e e' (.forLoop name iterable body) (.forLoop name iterable body')
  | whileCondition {body : Scope} :
      Statement.Replaced e e' (.whileLoop e body) (.whileLoop e' body)
  | whileBody {condition : Expression} {body body' : Scope} (h : Scope.Replaced e e' body body') :
      Statement.Replaced e e' (.whileLoop condition body) (.whileLoop condition body')
  | repeatBody {condition : Expression} {body body' fixup : Scope}
      (h : Scope.Replaced e e' body body') :
      Statement.Replaced e e' (.repeatLoop body condition fixup) (.repeatLoop body' condition fixup)
  | repeatCondition {body fixup : Scope} :
      Statement.Replaced e e' (.repeatLoop body e fixup) (.repeatLoop body e' fixup)
  | repeatFixup {condition : Expression} {body fixup fixup' : Scope}
      (h : Scope.Replaced e e' fixup fixup') :
      Statement.Replaced e e' (.repeatLoop body condition fixup) (.repeatLoop body condition fixup')
  | conjugationOuter {outer outer' inner : Scope} (h : Scope.Replaced e e' outer outer') :
      Statement.Replaced e e' (.conjugation outer inner) (.conjugation outer' inner)
  | conjugationInner {outer inner inner' : Scope} (h : Scope.Replaced e e' inner inner') :
      Statement.Replaced e e' (.conjugation outer inner) (.conjugation outer inner')
  | qubitInitializer {name : String} {body : Scope} :
      Statement.Replaced e e' (.qubitScope name e body) (.qubitScope name e' body)
  | qubitBody {name : String} {initializer : Expression} {body body' : Scope}
      (h : Scope.Replaced e e' body body') :
      Statement.Replaced e e' (.qubitScope name initializer body)
        (.qubitScope name initializer body')

/-- Branches of a conditional statement with one root expression replaced. -/
inductive Branches.Replaced (e e' : Expression) : Branches → Branches → Prop
  | otherwise {body body' : Scope} (h : Scope.Replaced e e' body body') :
      Branches.Replaced e e' (.otherwise body) (.otherwise body')
  | condition {body : Scope} {rest : Branches} :
      Branches.Replaced e e' (.branch e body rest) (.branch e' body rest)
  | body {condition : Expression} {body body' : Scope} {rest : Branches}
      (h : Scope.Replaced e e' body body') :
      Branches.Replaced e e' (.branch condition body rest) (.branch condition body' rest)
  | rest {condition : Expression} {body : Scope} {rest rest' : Branches}
      (h : Branches.Replaced e e' rest rest') :
      Branches.Replaced e e' (.branch condition body rest) (.branch condition body rest')

/-- A scope with one root expression replaced. -/
inductive Scope.Replaced (e e' : Expression) : Scope → Scope → Prop
  | head {s s' : Statement} {rest : Scope} (h : Statement.Replaced e e' s s') :
      Scope.Replaced e e' (s :: rest) (s' :: rest)
  | tail {s : Statement} {rest rest' : Scope} (h : Scope.Replaced e e' rest rest') :
      Scope.Replaced e e' (s :: rest) (s :: rest')

end

/-- A body with the branches `ifTrue` and `ifFalse` of one conditional
expression in it exchanged, for which `waiting` waits.  Nothing waits at the
root of an expression. -/
def Scope.Exchanged (ifTrue ifFalse : Expression) (waiting : Substitution.Stack)
    (scope scope' : Scope) : Prop :=
  ∃ e e', Expression.Exchanged ifTrue ifFalse waiting ∅ e e' ∧ Scope.Replaced e e' scope scope'

/-! ## references of a changed body -/

mutual

/-- A statement with a changed expression has the references of that in place
of the old ones. -/
theorem Statement.Replaced.splice {e e' : Expression} {s s' : Statement} :
    Statement.Replaced e e' s s' →
      Splice e.references e'.references s.references s'.references
  | .expression => .self _ _
  | .returnValue => .self _ _
  | .failWith => .self _ _
  | .bind => .self _ _
  | .assign => .self _ _
  | .conditional h => h.splice
  | .forIterable => .append _ (.self _ _)
  | .forBody h => .prepend _ h.splice
  | .whileCondition => .append _ (.self _ _)
  | .whileBody h => .prepend _ h.splice
  | .repeatBody h => .append _ h.splice
  | .repeatCondition => .prepend _ (.append _ (.self _ _))
  | .repeatFixup h => .prepend _ (.prepend _ h.splice)
  | .conjugationOuter h => .append _ h.splice
  | .conjugationInner h => .prepend _ h.splice
  | .qubitInitializer => .append _ (.self _ _)
  | .qubitBody h => .prepend _ h.splice

/-- So have branches. -/
theorem Branches.Replaced.splice {e e' : Expression} {branches branches' : Branches} :
    Branches.Replaced e e' branches branches' →
      Splice e.references e'.references branches.references branches'.references
  | .otherwise h => h.splice
  | .condition => .append _ (.self _ _)
  | .body h => .prepend _ (.append _ h.splice)
  | .rest h => .prepend _ (.prepend _ h.splice)

/-- And so have scopes. -/
theorem Scope.Replaced.splice {e e' : Expression} {scope scope' : Scope} :
    Scope.Replaced e e' scope scope' →
      Splice e.references e'.references scope.references scope'.references
  | .head h => .append _ h.splice
  | .tail h => .prepend _ h.splice

end

/-! ## uses of a changed body -/

/-- What references leave on a stack depends on whether there are any. -/
theorem Walk.left_eq_of_length_eq {rs rs' : List Reference} (stack : Substitution.Stack)
    (h : rs.length = rs'.length) : Walk.left stack rs = Walk.left stack rs' := by
  cases rs <;> cases rs' <;> first | rfl | simp at h

/-- The uses in an operand, after the references before it and before those
after it. -/
theorem uses_operand (c : CallContext) (stack : Substitution.Stack)
    (before after : List (Role × Expression)) (role : Role) (e : Expression) :
    uses c stack (operandReferences (before ++ (role, e) :: after)) =
      uses c stack (operandReferences before) ++
        (uses (c.enter role) (Walk.left stack (operandReferences before)) e.references ++
          uses c (Walk.left (Walk.left stack (operandReferences before)) e.references)
            (operandReferences after)) := by
  have hleft : Walk.left (Walk.left stack (operandReferences before))
      (e.references.map (·.under role)) =
        Walk.left (Walk.left stack (operandReferences before)) e.references :=
    Walk.left_eq_of_length_eq _ (List.length_map _)
  rw [operandReferences, List.flatMap_append, List.flatMap_cons, uses_append, uses_append,
    uses_under]
  rw [← hleft]
  rfl

variable {ifTrue ifFalse e e' : Expression} {waiting stack : Substitution.Stack}
  {scope scope' : Scope}

/-- The exchange changes the order of the references in the two branches:
what waits goes to the first one in the new order. -/
theorem Expression.Exchanged.splice (h : Expression.Exchanged ifTrue ifFalse waiting stack e e')
    (c : CallContext) :
    ∃ c', Splice (uses c' waiting (ifTrue.references ++ ifFalse.references))
      (uses c' waiting (ifFalse.references ++ ifTrue.references))
      (uses c stack e.references) (uses c stack e'.references) := by
  induction h generalizing c with
  | @branches condition type map stack hwaiting =>
      have hbranches (rs : List Reference) :
          uses c (stack.push map)
            (condition.references.map (·.under .value) ++ rs.map (·.under .carried)) =
          uses (c.enter .value) (stack.push map) condition.references ++ uses c waiting rs := by
        rw [uses_append, uses_under, uses_under, hwaiting,
          Walk.left_eq_of_length_eq _ (List.length_map _)]
        rfl
      refine ⟨c, ?_⟩
      rw [Expression.references, Expression.references, uses_within, uses_within,
        Form.references, Form.references, ← List.map_append, ← List.map_append, hbranches,
        hbranches]
      exact .prepend _ (.self _ _)
  | @operand form type map stack role e e' i hi _ ih =>
      obtain ⟨c', hinside⟩ := ih (c.enter role)
      have hold := Form.operands_eq_of_getElem? hi
      have hnew := Form.operands_setOperand hi e'
      have hlength : e.references.length = e'.references.length := by
        simpa using hinside.length_eq (by simp [Nat.add_comm])
      refine ⟨c', ?_⟩
      rw [Expression.references, Expression.references, uses_within, uses_within,
        Form.references_eq_of_operands (by rw [hold]; simp),
        Form.references_eq_of_operands (by rw [hnew]; simp), hold, hnew, uses_operand,
        uses_operand, ← Walk.left_eq_of_length_eq _ hlength]
      exact .prepend _ (.append _ hinside)

/-- So it does in a body, where nothing waits at the root of an expression. -/
theorem Scope.Exchanged.splice (h : Scope.Exchanged ifTrue ifFalse waiting scope scope') :
    ∃ c, Splice (CallGraphs.uses c waiting (ifTrue.references ++ ifFalse.references))
      (CallGraphs.uses c waiting (ifFalse.references ++ ifTrue.references))
      scope.uses scope'.uses := by
  obtain ⟨e, e', hexpression, hscope⟩ := h
  obtain ⟨c, hinside⟩ := hexpression.splice .initial
  rw [uses_empty, uses_empty] at hinside
  exact ⟨c, hinside.trans (hscope.splice.map _)⟩

/-! ## the walk of a changed body -/

/-- If what waits makes no difference to the first references of two lists, or
one list is empty, then their order makes none to the outcomes. -/
theorem Site.mem_outcomes_swap {site : Site} {c : CallContext} {rs rs' : List Reference}
    (h : ∀ r ∈ rs.head?, ∀ r' ∈ rs'.head?,
      site.resolveBehind waiting r = site.resolveBehind ∅ r ∧
        site.resolveBehind waiting r' = site.resolveBehind ∅ r')
    (o : Except BuildError (List Edge)) :
    o ∈ site.outcomes (uses c waiting (rs ++ rs')) ↔
      o ∈ site.outcomes (uses c waiting (rs' ++ rs)) := by
  cases rs with
  | nil => simp
  | cons r rs =>
      cases rs' with
      | nil => simp
      | cons r' rs' =>
          obtain ⟨hfirst, hsecond⟩ := h r rfl r' rfl
          have hhead : ∀ x ∈ (r :: rs ++ r' :: rs').head?,
              site.resolveBehind waiting x = site.resolveBehind ∅ x := by
            simpa using hfirst
          have hhead' : ∀ x ∈ (r' :: rs' ++ r :: rs).head?,
              site.resolveBehind waiting x = site.resolveBehind ∅ x := by
            simpa using hsecond
          rw [outcomes_uses hhead, outcomes_uses hhead', List.map_append, List.map_append,
            outcomes_append, outcomes_append, List.mem_append, List.mem_append, or_comm]

/-- The first of two lists of references gets what waits, the second one goes
without. -/
theorem uses_append_cons (c : CallContext) (stack : Substitution.Stack) (r r' : Reference)
    (rs rs' : List Reference) :
    uses c stack (r :: rs ++ r' :: rs') =
      r.useBehind c stack :: (rs.map (·.use c) ++ r'.useBehind c ∅ :: rs'.map (·.use c)) := by
  rw [Reference.useBehind_empty, List.cons_append, uses, List.map_append, List.map_cons]

/-- The branches of a conditional expression are alike up to the substitutions
that wait for them.  These go to the first reference of the branch that is
walked first, and the first reference of the other branch goes without; that,
and no more, is what exchanging the branches changes, wherever the expression
stands in a body.  So bodies are walked alike if what waits makes no
difference to these two references, in particular if one of the branches holds
no reference.  In general they are walked as the same uses say, but for those
two. -/
theorem Walk.body_exchanged {site : Site} (hlimit : site.options.nodeLimit = none)
    (h : Scope.Exchanged ifTrue ifFalse waiting scope scope') :
    ((∀ r ∈ ifTrue.references.head?, ∀ r' ∈ ifFalse.references.head?,
        site.resolveBehind waiting r = site.resolveBehind ∅ r ∧
          site.resolveBehind waiting r' = site.resolveBehind ∅ r') →
      site.WalksAlike scope scope') ∧
    ∃ c others, ∀ r ∈ ifTrue.references.head?, ∀ r' ∈ ifFalse.references.head?,
      site.WalkedAs scope (r.useBehind c waiting :: r'.useBehind c ∅ :: others) ∧
      site.WalkedAs scope' (r.useBehind c ∅ :: r'.useBehind c waiting :: others) := by
  obtain ⟨c, before, after, huses, huses'⟩ := h.splice
  have hwalked := site.walkedAs_uses hlimit scope
  have hwalked' := site.walkedAs_uses hlimit scope'
  rw [huses] at hwalked
  rw [huses'] at hwalked'
  constructor
  · intro halike
    refine (hwalked.congr fun o => ?_).walksAlike hwalked'
    simp only [Site.outcomes_append, List.mem_append, Site.mem_outcomes_swap halike]
  · refine ⟨c, before ++ (ifTrue.references.tail.map (·.use c) ++
      ifFalse.references.tail.map (·.use c) ++ after), fun r hr r' hr' => ?_⟩
    rw [List.eq_cons_of_mem_head? hr, List.eq_cons_of_mem_head? hr', uses_append_cons]
      at hwalked hwalked'
    refine ⟨hwalked.congr fun o => ?_, hwalked'.congr fun o => ?_⟩
    · simp only [Site.outcomes_append, Site.outcomes_cons, List.mem_append, List.mem_cons]
      tauto
    · simp only [Site.outcomes_append, Site.outcomes_cons, List.mem_append, List.mem_cons]
      tauto

/-- A call of `F` or `G`, both without type parameters, fixes a type for a
parameter of neither: the branches can be exchanged. -/
theorem Walk.body_exchanged_plain_callees :
    let name (s : String) : QualifiedName := ⟨"Test", s⟩
    let reference (s : String) : Expression := ⟨.identifier (.callable (name s)), .missing, ∅⟩
    let fixed : Substitution := .single ⟨name "H", "T"⟩ (.primitive .int)
    let scope (ifTrue ifFalse : Expression) : Scope :=
      [.expression ⟨.call ⟨.conditional (.bool true) ifTrue ifFalse, .missing, ∅⟩ .unit,
        .missing, fixed⟩]
    let site : Site :=
      { find? := fun n => some ⟨n, .operation, [], []⟩
        combiner := Combiner.compose
        caller := ⟨name "Main", .body, none⟩
        resolutions := ∅
        options := ⟨none, false⟩ }
    Scope.Exchanged (reference "F") (reference "G") ⟨[fixed]⟩
      (scope (reference "F") (reference "G")) (scope (reference "G") (reference "F")) ∧
    site.WalksAlike (scope (reference "F") (reference "G"))
      (scope (reference "G") (reference "F")) := by
  intro name reference fixed scope site
  have hexchanged : Scope.Exchanged (reference "F") (reference "G") ⟨[fixed]⟩
      (scope (reference "F") (reference "G")) (scope (reference "G") (reference "F")) :=
    ⟨_, _, .operand 0 rfl (.branches rfl), .head .expression⟩
  refine ⟨hexchanged, (Walk.body_exchanged rfl hexchanged).1 fun r hr r' hr' => ?_⟩
  cases hr
  cases hr'
  exact ⟨rfl, rfl⟩

/-- A call of `A` or `B`, of which `A` has a type parameter, fixes a type for
it.  The body is walked if `A` is the first branch, and refused if it is the
second one. -/
theorem Walk.exchange_refused :
    let name (s : String) : QualifiedName := ⟨"Test", s⟩
    let reference (s : String) : Expression := ⟨.identifier (.callable (name s)), .missing, ∅⟩
    let fixed : Substitution := .single ⟨name "A", "T"⟩ (.primitive .int)
    let scope (ifTrue ifFalse : Expression) : Scope :=
      [.expression ⟨.call ⟨.conditional (.bool true) ifTrue ifFalse, .missing, ∅⟩ .unit,
        .missing, fixed⟩]
    let site : Site :=
      { find? := fun n => some ⟨n, .operation, if n = name "A" then ["T"] else [], []⟩
        combiner := Combiner.compose
        caller := ⟨name "Main", .body, none⟩
        resolutions := ∅
        options := ⟨none, false⟩ }
    Scope.Exchanged (reference "A") (reference "B") ⟨[fixed]⟩
      (scope (reference "A") (reference "B")) (scope (reference "B") (reference "A")) ∧
    (∀ p, ∃ q, Walk.body site (scope (reference "A") (reference "B")) p = .ok () q) ∧
    ∀ p, ∃ q, Walk.body site (scope (reference "B") (reference "A")) p =
      .error (.unresolvedTypeParameter "Test.A" "T" "Test.Main (body)") q := by
  intro name reference fixed scope site
  have hfirst : (site.emissions (scope (reference "A") (reference "B")).references).error =
      none := by decide +kernel
  have hsecond : (site.emissions (scope (reference "B") (reference "A")).references).error =
      some (.unresolvedTypeParameter "Test.A" "T" "Test.Main (body)") := by decide +kernel
  refine ⟨⟨_, _, .operand 0 rfl (.branches rfl), .head .expression⟩, fun p => ?_, fun p => ?_⟩
  · exact ⟨_, by rw [Walk.body_apply rfl, Emissions.run, hfirst]⟩
  · exact ⟨_, by rw [Walk.body_apply rfl, Emissions.run, hsecond]⟩

end CallGraphs
