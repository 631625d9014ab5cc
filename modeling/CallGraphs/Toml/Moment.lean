import CallGraphs.Toml.Character

/-!
# CallGraphs.Toml.Moment

Dates and times.  A date has a day that its month has in its year, a time
has seconds and perhaps a fraction of them, and a date with a time may have
an offset.  Only their form is of interest here, so what is read is dropped.

The functions of this module tell what is left of a text after a date, a
time or an offset at its front.
-/

namespace CallGraphs.Toml

/-! ## fields -/

/-- A number of two digits that is at most `most`, then what follows. -/
def twoDigits (least most : Nat) : List Char → Option (Nat × List Char)
  | a :: b :: rest =>
    match digit? 10 a, digit? 10 b with
    | some m, some n =>
      if least ≤ m * 10 + n ∧ m * 10 + n ≤ most then some (m * 10 + n, rest) else none
    | _, _ => none
  | _ => none

/-- What follows the character `c` at the front. -/
def afterCharacter (c : Char) : List Char → Option (List Char)
  | d :: rest => if d = c then some rest else none
  | [] => none

/-! ## dates -/

/-- Whether a year of the Gregorian calendar has a leap day. -/
def isLeapYear (year : Nat) : Bool :=
  year % 4 = 0 && (year % 100 != 0 || year % 400 = 0)

/-- How many days a month has. -/
def daysInMonth (year month : Nat) : Nat :=
  if month = 2 then if isLeapYear year then 29 else 28
  else if month = 4 ∨ month = 6 ∨ month = 9 ∨ month = 11 then 30
  else 31

/-- What follows a date. -/
def afterDate (s : List Char) : Option (List Char) := do
  let (century, s) ← twoDigits 0 99 s
  let (year, s) ← twoDigits 0 99 s
  let s ← afterCharacter '-' s
  let (month, s) ← twoDigits 1 12 s
  let s ← afterCharacter '-' s
  let (_, s) ← twoDigits 1 (daysInMonth (century * 100 + year) month) s
  return s

/-! ## times -/

/-- What follows a fraction of a second, if there is one. -/
def afterFraction : List Char → Option (List Char)
  | '.' :: rest =>
    let fraction := rest.takeWhile fun c => (digit? 10 c).isSome
    if fraction = [] then none else some (rest.drop fraction.length)
  | s => some s

/-- What follows a time.  The second 60 is a leap second. -/
def afterTime (s : List Char) : Option (List Char) := do
  let (_, s) ← twoDigits 0 23 s
  let s ← afterCharacter ':' s
  let (_, s) ← twoDigits 0 59 s
  let s ← afterCharacter ':' s
  let (_, s) ← twoDigits 0 60 s
  afterFraction s

/-- Whether a text is empty or an offset from universal time. -/
def isOffset : List Char → Bool
  | [] => true
  | ['Z'] => true
  | ['z'] => true
  | c :: rest =>
    (c = '+' || c = '-') &&
      ((do
        let (_, s) ← twoDigits 0 23 rest
        let s ← afterCharacter ':' s
        let (_, s) ← twoDigits 0 59 s
        return s) == some [])

/-- Whether a text is a time with or without an offset. -/
def isTimeOfDate (s : List Char) : Bool := (afterTime s).any isOffset

/-! ## moments in one word -/

/-- Whether a text is a date alone. -/
def isDate (s : List Char) : Bool := afterDate s == some []

/-- Whether a text without blank is a date, a time, or a date and a time
with the letter T between them. -/
def isMoment (s : List Char) : Bool :=
  isDate s || afterTime s == some [] ||
    match afterDate s with
    | some (c :: rest) => (c = 'T' || c = 't') && isTimeOfDate rest
    | _ => false

end CallGraphs.Toml
