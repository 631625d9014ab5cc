/-!
# CallGraphs.Text.Numeral

Decimal numerals: the value of a digit, and reading a count that has to fit in
64 bits, with the cause of a refusal.

A count is one or more ASCII digits after at most one `+`.  It is read from
the left, so of two faults the first one is reported.
-/

namespace CallGraphs.Text

/-! ## digits -/

/-- The value of an ASCII decimal digit. -/
def digit? (c : Char) : Option Nat :=
  if '0' ≤ c ∧ c ≤ '9' then some (c.toNat - '0'.toNat) else none

/-! ## counts -/

/-- Why a text is not a count. -/
inductive CountError where
  | empty
  | invalidDigit
  | tooLarge
  deriving DecidableEq, Repr

/-- The wording of a refusal. -/
def CountError.message : CountError → String
  | .empty => "cannot parse integer from empty string"
  | .invalidDigit => "invalid digit found in string"
  | .tooLarge => "number too large to fit in target type"

/-- The largest count: 64 bits, all set. -/
def maxCount : Nat := 0xFFFFFFFFFFFFFFFF

/-- Read digits to the end, `value` being the value of the digits before. -/
def countFrom (value : Nat) : List Char → Except CountError Nat
  | [] => .ok value
  | c :: cs =>
    match digit? c with
    | none => .error .invalidDigit
    | some d =>
      if value * 10 + d ≤ maxCount then countFrom (value * 10 + d) cs else .error .tooLarge

/-- Read a count: at most one `+`, then at least one digit. -/
def readCount : List Char → Except CountError Nat
  | [] => .error .empty
  | ['+'] => .error .invalidDigit
  | '+' :: digits => countFrom 0 digits
  | digits => countFrom 0 digits

end CallGraphs.Text
