/-!
# CallGraphs.Text.Split

Cutting a text at a separator: at its last occurrence (`splitLast`) or at
every occurrence (`pieces`), and joining texts with a separator (`joined`).

* `splitLast_eq_some_iff` — the cut is at the last separator;
* `splitLast_eq_none_iff` — there is no cut exactly when the separator is absent;
* `joined_pieces` — joining the pieces gives the text back.
-/

namespace CallGraphs.Text

/-! ## the last occurrence -/

/-- What stands before and after the last `sep`, if there is one. -/
def splitLast (sep : Char) : List Char → Option (List Char × List Char)
  | [] => none
  | c :: cs =>
    match splitLast sep cs with
    | some (front, back) => some (c :: front, back)
    | none => if c = sep then some ([], cs) else none

/-- There is no cut exactly when the separator is absent. -/
theorem splitLast_eq_none_iff {sep : Char} {s : List Char} :
    splitLast sep s = none ↔ sep ∉ s := by
  induction s with
  | nil => simp [splitLast]
  | cons c cs ih => grind [splitLast]

/-- The cut is at the last separator: the back part holds none. -/
theorem splitLast_eq_some_iff {sep : Char} {s front back : List Char} :
    splitLast sep s = some (front, back) ↔ s = front ++ sep :: back ∧ sep ∉ back := by
  induction s generalizing front with
  | nil => simp [splitLast]
  | cons c cs ih =>
      have hnone := @splitLast_eq_none_iff sep cs
      cases front with
      | nil => grind [splitLast]
      | cons d ds => have := @ih ds; grind [splitLast]

/-! ## every occurrence -/

/-- The texts between the separators; a text without separator is one piece. -/
def pieces (sep : Char) : List Char → List (List Char)
  | [] => [[]]
  | c :: cs =>
    if c = sep then [] :: pieces sep cs
    else
      match pieces sep cs with
      | [] => [[c]]
      | p :: ps => (c :: p) :: ps

/-- The texts one after the other with `sep` between neighbours. -/
def joined (sep : Char) : List (List Char) → List Char
  | [] => []
  | [p] => p
  | p :: q :: ps => p ++ sep :: joined sep (q :: ps)

/-- There is at least one piece. -/
theorem pieces_ne_nil (sep : Char) (s : List Char) : pieces sep s ≠ [] := by
  cases s with
  | nil => simp [pieces]
  | cons c cs => grind [pieces]

/-- No piece holds the separator. -/
theorem not_mem_of_mem_pieces {sep : Char} {s p : List Char} (h : p ∈ pieces sep s) :
    sep ∉ p := by
  induction s generalizing p with
  | nil => simp_all [pieces]
  | cons c cs ih => grind [pieces]

/-- Joining the pieces gives the text back. -/
theorem joined_pieces (sep : Char) (s : List Char) : joined sep (pieces sep s) = s := by
  induction s with
  | nil => rfl
  | cons c cs ih =>
      have hne := pieces_ne_nil sep cs
      cases h : pieces sep cs with
      | nil => exact absurd h hne
      | cons p ps => cases ps <;> grind [pieces, joined]

end CallGraphs.Text
