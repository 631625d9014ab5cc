import CallGraphs.Toml.Character

/-!
# CallGraphs.Toml.Writing

Writing strings and lists of strings.  A string is written in the plainest
of the four forms that can hold it:

1. in double quotes, if nothing but tabs has to be escaped;
2. in single quotes, if no control character, single quote or line break stands in it;
3. in three double quotes, if it has no control character and no backslash,
   and at most two double quotes in a row;
4. in three single quotes, if it has no control character and at most two
   single quotes in a row;
5. else with escapes, in three double quotes if it has a line break and in
   one otherwise.

A form with three quotes begins with a line break if the text has one.
-/

namespace CallGraphs.Toml

/-! ## what stands in a text -/

/-- Whether a character is a control character other than a tab or a line
feed. -/
def isControl (c : Char) : Bool := (c.toNat < 0x20 && c != '\t' && c != '\n') || c.toNat = 0x7F

/-- The length of the longest run of `c` in a text, `run` being the length
of the run before it. -/
def longestRun (c : Char) (run : Nat) : List Char → Nat
  | [] => run
  | d :: ds => if d = c then longestRun c (run + 1) ds else max run (longestRun c 0 ds)

/-! ## escapes -/

/-- An upper case hexadecimal digit. -/
def hexDigit (n : Nat) : Char := if n < 10 then Char.ofNat (48 + n) else Char.ofNat (55 + n)

/-- A control character as an escape of its code point in four digits. -/
def codePointEscape (c : Char) : List Char :=
  ['\\', 'u', hexDigit (c.toNat / 4096 % 16), hexDigit (c.toNat / 256 % 16),
    hexDigit (c.toNat / 16 % 16), hexDigit (c.toNat % 16)]

/-- The escape of a character other than a double quote or a line feed, or
the character itself if it needs none. -/
def escaped (c : Char) : List Char :=
  if c = '\x08' then ['\\', 'b']
  else if c = '\t' then ['\\', 't']
  else if c = '\x0c' then ['\\', 'f']
  else if c = '\r' then ['\\', 'r']
  else if c = '\\' then ['\\', '\\']
  else if isControl c then codePointEscape c
  else [c]

/-- The inside of a basic string in one line. -/
def writeBasic : List Char → List Char
  | [] => []
  | c :: cs =>
    (if c = '"' then ['\\', '"'] else if c = '\n' then ['\\', 'n'] else escaped c) ++ writeBasic cs

/-- The inside of a basic string of several lines.  Every third double quote
in a row is escaped, `run` being the number of those just written. -/
def writeMultilineBasic (run : Nat) : List Char → List Char
  | [] => []
  | c :: cs =>
    if c = '"' then
      if run = 2 then '\\' :: '"' :: writeMultilineBasic 0 cs
      else '"' :: writeMultilineBasic (run + 1) cs
    else (if c = '\n' then ['\n'] else escaped c) ++ writeMultilineBasic 0 cs

/-! ## strings -/

/-- The forms in which a string can be written. -/
inductive StringForm where
  | basic
  | literal
  | multilineBasic
  | multilineLiteral
  deriving DecidableEq, Repr

/-- The form in which a text is written. -/
def formOf (s : List Char) : StringForm :=
  let control := s.any isControl
  let backslash := s.contains '\\'
  let lines := s.contains '\n'
  if !control && !backslash && !s.contains '"' && !lines then .basic
  else if !control && !s.contains '\'' && !lines then .literal
  else if !control && !backslash && longestRun '"' 0 s ≤ 2 then .multilineBasic
  else if !control && longestRun '\'' 0 s ≤ 2 then .multilineLiteral
  else if lines then .multilineBasic
  else .basic

/-- The line break at the beginning of a form with three quotes. -/
def firstBreak (s : List Char) : List Char := if s.contains '\n' then ['\n'] else []

/-- A string as it is written. -/
def writeString (s : List Char) : List Char :=
  match formOf s with
  | .basic => '"' :: writeBasic s ++ ['"']
  | .literal => '\'' :: s ++ ['\'']
  | .multilineBasic =>
    ['"', '"', '"'] ++ firstBreak s ++ writeMultilineBasic 0 s ++ ['"', '"', '"']
  | .multilineLiteral => ['\'', '\'', '\''] ++ firstBreak s ++ s ++ ['\'', '\'', '\'']

/-! ## lists of strings -/

/-- The items of a list of several strings, each on a line of its own. -/
def writeItems : List (List Char) → List Char
  | [] => []
  | s :: rest => [' ', ' ', ' ', ' '] ++ writeString s ++ [',', '\n'] ++ writeItems rest

/-- A list of strings: in one line if there is at most one. -/
def writeStrings : List (List Char) → List Char
  | [] => ['[', ']']
  | [s] => '[' :: writeString s ++ [']']
  | s :: t :: rest => '[' :: '\n' :: writeItems (s :: t :: rest) ++ [']']

end CallGraphs.Toml
