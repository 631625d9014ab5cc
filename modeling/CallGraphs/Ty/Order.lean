import CallGraphs.Ty.Basic

/-!
# CallGraphs.Ty.Order

The order on types: by form first, in the order in which `Ty` lists its
forms, then by the parts from left to right; lists of parts compare as
words in a dictionary.

* `compare_eq_iff` — two types compare as equal exactly when they are equal,
  from which equality of types is decidable.
-/

namespace CallGraphs

namespace Primitive

/-- The place of a primitive type in the order. -/
def rank : Primitive → Nat
  | .unit => 0
  | .int => 1
  | .bigInt => 2
  | .double => 3
  | .bool => 4
  | .string => 5
  | .qubit => 6
  | .result => 7
  | .pauli => 8
  | .range => 9

theorem rank_inj {p q : Primitive} : p.rank = q.rank ↔ p = q := by
  cases p <;> cases q <;> decide

end Primitive

namespace Ty

/-- The place of a form in the order. -/
def rank : Ty → Nat
  | .primitive _ => 0
  | .array _ => 1
  | .tuple _ => 2
  | .function _ _ => 3
  | .operation _ _ => 4
  | .userDefined _ => 5
  | .parameter _ => 6
  | .missing => 7

mutual

/-- Compare two types by form, then part by part. -/
protected def compare : Ty → Ty → Ordering
  | .primitive p, .primitive q => Ord.compare p.rank q.rank
  | .array s, .array t => s.compare t
  | .tuple ss, .tuple ts => compareList ss ts
  | .function i o, .function j r => (i.compare j).then (o.compare r)
  | .operation i o, .operation j r => (i.compare j).then (o.compare r)
  | .userDefined m, .userDefined n => Ord.compare m n
  | .parameter p, .parameter q => Ord.compare p q
  | s, t => Ord.compare s.rank t.rank

/-- Compare two lists of types as words: the first difference decides, and
a list comes before its extensions. -/
def compareList : List Ty → List Ty → Ordering
  | [], [] => .eq
  | [], _ :: _ => .lt
  | _ :: _, [] => .gt
  | s :: ss, t :: ts => (s.compare t).then (compareList ss ts)

end

instance : Ord Ty := ⟨Ty.compare⟩

/-! ## equality -/

mutual

/-- A type compares as equal with itself. -/
theorem compare_self : (t : Ty) → t.compare t = .eq
  | .primitive _ => by simp [Ty.compare]
  | .array t => by simpa [Ty.compare] using compare_self t
  | .tuple ts => by simpa [Ty.compare] using compareList_self ts
  | .function i o => by simp [Ty.compare, compare_self i, compare_self o]
  | .operation i o => by simp [Ty.compare, compare_self i, compare_self o]
  | .userDefined _ => by simp [Ty.compare]
  | .parameter _ => by simp [Ty.compare]
  | .missing => rfl

/-- A list of types compares as equal with itself. -/
theorem compareList_self : (ts : List Ty) → compareList ts ts = .eq
  | [] => rfl
  | t :: ts => by simp [compareList, compare_self t, compareList_self ts]

end

mutual

/-- Types that compare as equal are equal. -/
theorem eq_of_compare : (s t : Ty) → s.compare t = .eq → s = t
  | .primitive p, t, h => by
      cases t <;> simp_all [Ty.compare, rank, Primitive.rank_inj]
  | .array s, t, h => by
      cases t with
      | array t => rw [eq_of_compare s t (by simpa [Ty.compare] using h)]
      | _ => simp [Ty.compare, rank] at h
  | .tuple ss, t, h => by
      cases t with
      | tuple ts => rw [eq_of_compareList ss ts (by simpa [Ty.compare] using h)]
      | _ => simp [Ty.compare, rank] at h
  | .function i o, t, h => by
      cases t with
      | function j r =>
          have ⟨h₁, h₂⟩ : i.compare j = .eq ∧ o.compare r = .eq := by
            simpa [Ty.compare, Ordering.then_eq_eq] using h
          rw [eq_of_compare i j h₁, eq_of_compare o r h₂]
      | _ => simp [Ty.compare, rank] at h
  | .operation i o, t, h => by
      cases t with
      | operation j r =>
          have ⟨h₁, h₂⟩ : i.compare j = .eq ∧ o.compare r = .eq := by
            simpa [Ty.compare, Ordering.then_eq_eq] using h
          rw [eq_of_compare i j h₁, eq_of_compare o r h₂]
      | _ => simp [Ty.compare, rank] at h
  | .userDefined m, t, h => by
      cases t <;> simp_all [Ty.compare, rank]
  | .parameter p, t, h => by
      cases t <;> simp_all [Ty.compare, rank]
  | .missing, t, h => by
      cases t <;> simp_all [Ty.compare, rank]

/-- Lists of types that compare as equal are equal. -/
theorem eq_of_compareList : (ss ts : List Ty) → compareList ss ts = .eq → ss = ts
  | [], [], _ => rfl
  | [], _ :: _, h => by simp [compareList] at h
  | _ :: _, [], h => by simp [compareList] at h
  | s :: ss, t :: ts, h => by
      have ⟨h₁, h₂⟩ : s.compare t = .eq ∧ compareList ss ts = .eq := by
        simpa [compareList, Ordering.then_eq_eq] using h
      rw [eq_of_compare s t h₁, eq_of_compareList ss ts h₂]

end

/-- Two types compare as equal exactly when they are equal. -/
theorem compare_eq_iff {s t : Ty} : s.compare t = .eq ↔ s = t :=
  ⟨eq_of_compare s t, fun h => h ▸ compare_self s⟩

instance : DecidableEq Ty := fun _ _ => decidable_of_iff _ compare_eq_iff

instance : Std.LawfulEqOrd Ty where
  compare_self := compare_self _
  eq_of_compare := eq_of_compare _ _

end Ty

end CallGraphs
