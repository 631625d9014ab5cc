/-!
# CallGraphs.Toml.Character

The classes of characters of the TOML format, and its line breaks and
blanks.

* `newline?_lt`, `length_skipBlanks_le` — what reading a line break or blanks leaves.
-/

namespace CallGraphs.Toml

/-! ## classes -/

/-- Whether a character may stand in a comment or a string as it is: a tab,
or no control character. -/
def isPlain (c : Char) : Bool := c = '\t' || (0x20 ≤ c.toNat && c.toNat != 0x7F)

/-- Whether a character may stand in a bare key. -/
def isKeyCharacter (c : Char) : Bool := c.isAlphanum || c = '-' || c = '_'

/-- Whether a character may stand in a number, a date, a time or a truth
value. -/
def isWordCharacter (c : Char) : Bool :=
  c.isAlphanum || c = '+' || c = '-' || c = '_' || c = '.' || c = ':'

/-- The value of a digit in a base up to sixteen. -/
def digit? (base : Nat) (c : Char) : Option Nat :=
  let value? :=
    if '0' ≤ c ∧ c ≤ '9' then some (c.toNat - 48)
    else if 'a' ≤ c ∧ c ≤ 'f' then some (c.toNat - 87)
    else if 'A' ≤ c ∧ c ≤ 'F' then some (c.toNat - 55)
    else none
  value?.filter (· < base)

/-! ## line breaks and blanks -/

/-- What follows a line break: a line feed, or a carriage return with a line
feed. -/
def newline? : List Char → Option (List Char)
  | '\n' :: rest => some rest
  | '\r' :: '\n' :: rest => some rest
  | _ => none

theorem newline?_lt {s rest : List Char} (h : newline? s = some rest) :
    rest.length < s.length := by
  unfold newline? at h
  split at h
  · cases h
    exact Nat.lt_succ_self _
  · cases h
    exact Nat.lt_succ_of_lt (Nat.lt_succ_self _)
  · cases h

/-- Whether a character is a blank within a line. -/
def isBlank (c : Char) : Bool := c = ' ' || c = '\t'

/-- What follows the blanks at the front. -/
def skipBlanks (s : List Char) : List Char := s.dropWhile isBlank

theorem length_dropWhile_le (p : Char → Bool) (s : List Char) :
    (s.dropWhile p).length ≤ s.length :=
  (List.dropWhile_suffix p).length_le

theorem length_skipBlanks_le (s : List Char) : (skipBlanks s).length ≤ s.length :=
  length_dropWhile_le isBlank s

/-- What follows a comment at the front, if there is one.  The line break at
its end stays. -/
def skipComment : List Char → List Char
  | '#' :: rest => rest.dropWhile isPlain
  | s => s

theorem length_skipComment_le (s : List Char) : (skipComment s).length ≤ s.length := by
  unfold skipComment
  split
  · exact Nat.le_succ_of_le (length_dropWhile_le _ _)
  · exact Nat.le_refl _

/-- What follows the end of a line: blanks, perhaps a comment, and a line
break or the end of the text. -/
def lineEnd? (s : List Char) : Option (List Char) :=
  match skipComment (skipBlanks s) with
  | [] => some []
  | c :: cs => newline? (c :: cs)

/-- What follows the blanks, comments and line breaks at the front. -/
def skipLines (s : List Char) : List Char :=
  match _h : newline? (skipComment (skipBlanks s)) with
  | some rest => skipLines rest
  | none => skipComment (skipBlanks s)
termination_by s.length
decreasing_by
  have h₁ := newline?_lt _h
  have h₂ := length_skipComment_le (skipBlanks s)
  have h₃ := length_skipBlanks_le s
  omega

end CallGraphs.Toml
