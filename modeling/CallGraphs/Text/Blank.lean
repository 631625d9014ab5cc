/-!
# CallGraphs.Text.Blank

Blank characters and trimming.  A character is blank when Unicode gives it
the property `White_Space`; trimming removes the blank characters at both
ends of a text and keeps those between.

* `isBlank_of_isWhitespace` — every ASCII white space character is blank;
* `trim_of_not_blank_ends` — a text with no blank end is its own trimming.
-/

namespace CallGraphs.Text

/-! ## the table -/

/-- The characters with the Unicode property `White_Space`, as ranges of
code points in increasing order. -/
def blankRanges : List (Nat × Nat) :=
  [(0x09, 0x0D), (0x20, 0x20), (0x85, 0x85), (0xA0, 0xA0), (0x1680, 0x1680),
   (0x2000, 0x200A), (0x2028, 0x2029), (0x202F, 0x202F), (0x205F, 0x205F),
   (0x3000, 0x3000)]

/-- Whether `c` has the Unicode property `White_Space`. -/
def isBlank (c : Char) : Bool :=
  blankRanges.any fun (first, last) => first ≤ c.toNat && c.toNat ≤ last

/-- The table holds the 25 characters of the property. -/
theorem blankRanges_count :
    (blankRanges.flatMap fun (first, last) => List.range' first (last - first + 1)).length = 25 :=
  rfl

/-- The table covers the white space of ASCII. -/
theorem isBlank_of_isWhitespace {c : Char} (h : c.isWhitespace = true) : isBlank c = true := by
  simp only [Char.isWhitespace, Bool.or_eq_true, decide_eq_true_eq] at h
  rcases h with ((h | h) | h) | h <;> subst h <;> decide

/-! ## trimming -/

/-- Remove the blank characters at the front. -/
def trimFront (s : List Char) : List Char := s.dropWhile isBlank

/-- Remove the blank characters at the back. -/
def trimBack (s : List Char) : List Char := (s.reverse.dropWhile isBlank).reverse

/-- Remove the blank characters at both ends. -/
def trim (s : List Char) : List Char := trimBack (trimFront s)

@[simp] theorem trim_nil : trim [] = [] := rfl

@[simp] theorem trimFront_cons_of_blank {c : Char} (h : isBlank c = true) (s : List Char) :
    trimFront (c :: s) = trimFront s := by
  simp [trimFront, h]

@[simp] theorem trimFront_cons_of_not_blank {c : Char} (h : isBlank c = false) (s : List Char) :
    trimFront (c :: s) = c :: s := by
  simp [trimFront, h]

@[simp] theorem trimBack_append_of_blank {c : Char} (h : isBlank c = true) (s : List Char) :
    trimBack (s ++ [c]) = trimBack s := by
  simp [trimBack, h]

@[simp] theorem trimBack_append_of_not_blank {c : Char} (h : isBlank c = false)
    (s : List Char) : trimBack (s ++ [c]) = s ++ [c] := by
  simp [trimBack, h]

/-- A text that neither begins nor ends with a blank is its own trimming. -/
theorem trim_of_not_blank_ends {s : List Char}
    (hhead : ∀ c, s.head? = some c → isBlank c = false)
    (hlast : ∀ c, s.getLast? = some c → isBlank c = false) : trim s = s := by
  cases s with
  | nil => rfl
  | cons c r =>
      rw [trim, trimFront_cons_of_not_blank (hhead c rfl)]
      obtain ⟨front, last, h⟩ : ∃ front last, c :: r = front ++ [last] :=
        ⟨_, _, (List.dropLast_concat_getLast (List.cons_ne_nil c r)).symm⟩
      rw [h] at hlast ⊢
      exact trimBack_append_of_not_blank (hlast last (by simp)) front

end CallGraphs.Text
