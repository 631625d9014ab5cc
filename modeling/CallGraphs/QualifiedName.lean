import CallGraphs.Text.Blank
import CallGraphs.Text.Split

/-!
# CallGraphs.QualifiedName

Names of callables.  A qualified name is a namespace, itself possibly
dotted, and a declared name; its text puts a dot between the two.

* `parse_eq_some_iff` — reading a text cuts its trimming at the last dot,
  and both sides have to be non-empty.
-/

namespace CallGraphs

/-- The name of a callable, unique in a program: its namespace `space` and
its declared name. -/
structure QualifiedName where
  space : String
  name : String
  deriving DecidableEq, Repr

namespace QualifiedName

/-- By namespace, then by declared name. -/
instance : Ord QualifiedName :=
  ⟨compareLex (compareOn (·.space)) (compareOn (·.name))⟩

instance : Std.TransOrd QualifiedName :=
  inferInstanceAs (Std.TransCmp (compareLex (compareOn QualifiedName.space) (compareOn (·.name))))

instance : Std.LawfulEqOrd QualifiedName where
  compare_self := by
    intro a
    show (compare a.space a.space).then (compare a.name a.name) = .eq
    simp
  eq_of_compare {a b} h := by
    obtain ⟨h₁, h₂⟩ := Ordering.then_eq_eq.1 h
    cases a; cases b
    simp only [QualifiedName.mk.injEq]
    exact ⟨Std.LawfulEqOrd.eq_of_compare h₁, Std.LawfulEqOrd.eq_of_compare h₂⟩

/-- The dotted text of a name. -/
def text (q : QualifiedName) : String := q.space ++ "." ++ q.name

/-! ## reading -/

/-- Read a dotted name: blanks at both ends are dropped, and what follows the
last dot is the declared name.  Neither side may be empty. -/
def parse? (s : String) : Option QualifiedName :=
  match Text.splitLast '.' (Text.trim s.toList) with
  | some (space, name) =>
    if space = [] ∨ name = [] then none
    else some ⟨String.ofList space, String.ofList name⟩
  | none => none

/-- The name read from a text is the cut of its trimming at the last dot. -/
theorem parse?_eq_some_iff {s : String} {q : QualifiedName} :
    parse? s = some q ↔
      Text.trim s.toList = q.space.toList ++ '.' :: q.name.toList ∧
        '.' ∉ q.name.toList ∧ q.space ≠ "" ∧ q.name ≠ "" := by
  obtain ⟨space, name⟩ := q
  have hcut := @Text.splitLast_eq_some_iff '.' (Text.trim s.toList) space.toList name.toList
  rw [parse?]
  cases h : Text.splitLast '.' (Text.trim s.toList) with
  | none => simp_all
  | some r =>
      obtain ⟨front, back⟩ := r
      rw [h] at hcut
      have ofList_eq : ∀ {l : List Char} {t : String}, String.ofList l = t ↔ l = t.toList := by
        intro l t
        exact ⟨fun e => by simp [← e], fun e => by simp [e]⟩
      have empty_iff : ∀ {t : String}, t = "" ↔ t.toList = [] := by simp
      simp only [Option.some.injEq, Prod.mk.injEq] at hcut
      by_cases hempty : front = [] ∨ back = []
      · simp only [hempty, if_true]
        grind
      · simp only [hempty, if_false, Option.some.injEq, mk.injEq, ofList_eq, ne_eq, empty_iff]
        grind

end QualifiedName

end CallGraphs
