import CallGraphs.Toml.Character

/-!
# CallGraphs.Toml.Number

Integers and floats.  Digits may be grouped by single underscores between
them.  A decimal number has no superfluous leading zero; an integer may
also be written in base 16, 8 or 2 behind `0x`, `0o` or `0b`, then without
a sign.  Integers have 64 bits.  The value of a float plays no role here,
except that a positive one must not be too large for a double.
-/

namespace CallGraphs.Toml

/-! ## digits -/

/-- Read digits to the end, `value` being the value of those before.  An
underscore may stand before a digit. -/
def digitsFrom (base value : Nat) : List Char → Option Nat
  | [] => some value
  | '_' :: c :: cs =>
    match digit? base c with
    | some d => digitsFrom base (value * base + d) cs
    | none => none
  | c :: cs =>
    match digit? base c with
    | some d => digitsFrom base (value * base + d) cs
    | none => none

/-- Read one or more digits. -/
def digits (base : Nat) : List Char → Option Nat
  | [] => none
  | c :: cs =>
    match digit? base c with
    | some d => digitsFrom base d cs
    | none => none

/-- Read decimal digits without a superfluous leading zero. -/
def decimal : List Char → Option Nat
  | ['0'] => some 0
  | '0' :: _ => none
  | s => digits 10 s

/-- The sign at the front, minus or not, and what follows it. -/
def sign : List Char → Bool × List Char
  | '-' :: rest => (true, rest)
  | '+' :: rest => (false, rest)
  | s => (false, s)

/-! ## integers -/

/-- The largest integer: 63 bits, all set. -/
def maxInteger : Nat := 0x7FFFFFFFFFFFFFFF

/-- Read an integer. -/
def integer? (s : List Char) : Option Int :=
  let unsigned (n : Nat) : Option Int := if n ≤ maxInteger then some n else none
  match s with
  | '0' :: 'x' :: rest => (digits 16 rest).bind unsigned
  | '0' :: 'o' :: rest => (digits 8 rest).bind unsigned
  | '0' :: 'b' :: rest => (digits 2 rest).bind unsigned
  | s =>
    let (negative, rest) := sign s
    (decimal rest).bind fun n =>
      if negative then if n ≤ maxInteger + 1 then some (-(n : Int)) else none else unsigned n

/-! ## floats -/

/-- Whether `mantissa` times ten to the power of `exponent` is at least the
least number that is too large for a double.  A number with more than 310
digits before the point is, and one with fewer than 300 is not. -/
def exceedsDouble (mantissa : Nat) (exponent : Int) : Bool :=
  let bound := Nat.pow 2 1024 - Nat.pow 2 970
  let length : Int := (Nat.toDigits 10 mantissa).length + exponent
  if mantissa = 0 then false
  else if 310 < length then true
  else if length < 300 then false
  else if 0 ≤ exponent then bound ≤ mantissa * Nat.pow 10 exponent.toNat
  else bound * Nat.pow 10 (-exponent).toNat ≤ mantissa

/-- Whether a character begins an exponent. -/
def isExponentMark (c : Char) : Bool := c = 'e' || c = 'E'

/-- The exponent at the end of a float, zero if there is none. -/
def exponent? : List Char → Option Int
  | [] => some 0
  | _ :: rest =>
    let (negative, s) := sign rest
    (digits 10 s).map fun n => if negative then -(n : Int) else n

/-- Whether a text without sign is a float: decimal digits, then a fraction
or an exponent or both.  The number must not be too large for a double
unless `negative` says that there was a minus sign. -/
def isFiniteFloat (negative : Bool) (s : List Char) : Bool :=
  let inner := s.takeWhile fun c => c != '.' && !isExponentMark c
  let parts : Option (Nat × Int) :=
    match s.drop inner.length with
    | '.' :: rest =>
      let fraction := rest.takeWhile fun c => !isExponentMark c
      let places := (fraction.filter (· != '_')).length
      match digits 10 fraction, exponent? (rest.drop fraction.length) with
      | some f, some e =>
        (decimal inner).map fun n => (n * Nat.pow 10 places + f, e - places)
      | _, _ => none
    | c :: rest =>
      match exponent? (c :: rest) with
      | some e => (decimal inner).map fun n => (n, e)
      | none => none
    | [] => none
  match parts with
  | some (mantissa, exponent) => negative || !exceedsDouble mantissa exponent
  | none => false

/-- Whether a text is a float. -/
def isFloat (s : List Char) : Bool :=
  let (negative, rest) := sign s
  rest = ['i', 'n', 'f'] || rest = ['n', 'a', 'n'] || isFiniteFloat negative rest

end CallGraphs.Toml
