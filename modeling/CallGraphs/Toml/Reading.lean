import CallGraphs.Toml.Moment
import CallGraphs.Toml.Number
import CallGraphs.Toml.Quoted
import CallGraphs.Toml.Value

/-!
# CallGraphs.Toml.Reading

Reading keys, values and the statements of a document.  A statement is a
key with a value, the header of a table, or the header of an element of an
array of tables.

Arrays and inline tables may be nested up to a depth of 79, and a dotted
key has fewer than 80 parts.
-/

namespace CallGraphs.Toml

/-! ## keys -/

/-- Read a key without dots: quoted in one line, or bare. -/
def simpleKey : Reader String
  | '"' :: rest => (basic rest).map fun (k, s) => (String.ofList k, s)
  | '\'' :: rest => (literal rest).map fun (k, s) => (String.ofList k, s)
  | s =>
    let bare := s.takeWhile isKeyCharacter
    if bare = [] then none else some (String.ofList bare, s.drop bare.length)

/-- Read the parts of a dotted key with blanks around each, at most `parts`
of them. -/
def keyParts : (parts : Nat) → Reader (List String)
  | 0, _ => none
  | parts + 1, s =>
    match simpleKey (skipBlanks s) with
    | none => none
    | some (k, s) =>
      match skipBlanks s with
      | '.' :: rest => (keyParts parts rest).map fun (ks, s) => (k :: ks, s)
      | s => some ([k], s)

/-- The largest number of parts of a dotted key. -/
def maxKeyParts : Nat := 79

/-- Read a dotted key: the parts before the last one, and the last one. -/
def dottedKey : Reader (List String × String) := fun s =>
  match keyParts maxKeyParts s with
  | some (ks, rest) => ks.getLast?.map fun k => ((ks.dropLast, k), rest)
  | none => none

/-! ## values without parts -/

/-- The value of a word. -/
def wordValue (w : List Char) : Option Value :=
  match integer? w with
  | some n => some (.integer n)
  | none =>
    if w = ['t', 'r', 'u', 'e'] then some (.boolean true)
    else if w = ['f', 'a', 'l', 's', 'e'] then some (.boolean false)
    else if isFloat w then some .float
    else if isMoment w then some .moment
    else none

/-- What follows a time after a blank, if the word `w` is a date. -/
def blankTime? (w rest : List Char) : Option (List Char) :=
  match rest with
  | ' ' :: rest =>
    let time := rest.takeWhile isWordCharacter
    if isDate w && isTimeOfDate time then some (rest.drop time.length) else none
  | _ => none

/-- Read a word: a number, a truth value, or a date or time, where a blank
may stand between a date and its time. -/
def word : Reader Value := fun s =>
  let w := s.takeWhile isWordCharacter
  let rest := s.drop w.length
  match blankTime? w rest with
  | some rest => some (.moment, rest)
  | none => (wordValue w).map fun v => (v, rest)

/-- Read a value without parts. -/
def scalar : Reader Value
  | '"' :: rest => (quoted ('"' :: rest)).map fun (t, s) => (.string (String.ofList t), s)
  | '\'' :: rest => (quoted ('\'' :: rest)).map fun (t, s) => (.string (String.ofList t), s)
  | s => word s

/-! ## values with parts -/

/-- Read the items of an array after its opening bracket, at most `items` of
them. -/
def arrayItems (item : Reader Value) : (items : Nat) → Reader (List Value)
  | items, s =>
    match skipLines s with
    | ']' :: rest => some ([], rest)
    | s =>
      match items with
      | 0 => none
      | items + 1 =>
        match item s with
        | none => none
        | some (v, s) =>
          match skipLines s with
          | ']' :: rest => some ([v], rest)
          | ',' :: rest => (arrayItems item items rest).map fun (vs, s) => (v :: vs, s)
          | _ => none

/-- Read a key with its value: the key, the sign of equality and the value,
with blanks around each. -/
def keyValue (item : Reader Value) : Reader ((List String × String) × Value) := fun s =>
  match dottedKey s with
  | some (key, '=' :: rest) =>
    (item (skipBlanks rest)).map fun (v, s) => ((key, v), skipBlanks s)
  | _ => none

/-- Read the keys of an inline table after its opening brace, at most
`pairs` of them, into a table. -/
def inlinePairs (item : Reader Value) : (pairs : Nat) → Entries → Reader Entries
  | 0, _, _ => none
  | pairs + 1, entries, s =>
    match keyValue item s with
    | none => none
    | some (((path, key), v), s) =>
      match entries.assign key v path with
      | none => none
      | some entries =>
        match s with
        | '\x7d' :: rest => some (entries, rest)
        | ',' :: rest => inlinePairs item pairs entries rest
        | _ => none

/-- Read an inline table after its opening brace. -/
def inlineTable (item : Reader Value) : Reader Entries := fun s =>
  match skipBlanks s with
  | '\x7d' :: rest => some ([], rest)
  | s => inlinePairs item s.length [] s

/-- Read a value whose arrays and inline tables are nested at most `depth`
deep. -/
def value : (depth : Nat) → Reader Value
  | 0, s => scalar s
  | depth + 1, s =>
    match s with
    | '[' :: rest => (arrayItems (value depth) rest.length rest).map fun (vs, s) => (.array vs, s)
    | '\x7b' :: rest =>
      (inlineTable (value depth) rest).map fun (entries, s) => (.table .inline entries, s)
    | s => scalar s

/-- How deep arrays and inline tables may be nested. -/
def maxDepth : Nat := 79

/-! ## statements -/

/-- A statement of a document. -/
inductive Statement where
  | assignment (path : List String) (key : String) (value : Value)
  | table (path : List String) (key : String)
  | element (path : List String) (key : String)

/-- Read a statement. -/
def statement : Reader Statement
  | '[' :: '[' :: rest =>
    match dottedKey rest with
    | some ((path, key), ']' :: ']' :: rest) => some (.element path key, rest)
    | _ => none
  | '[' :: rest =>
    match dottedKey rest with
    | some ((path, key), ']' :: rest) => some (.table path key, rest)
    | _ => none
  | s => (keyValue (value maxDepth) s).map fun (((path, key), v), s) => (.assignment path key v, s)

/-- Read at most `lines` lines to the end of the text, each with at most one
statement. -/
def statements : (lines : Nat) → List Char → Option (List Statement)
  | _, [] => some []
  | 0, _ => none
  | lines + 1, s =>
    match lineEnd? s with
    | some rest => statements lines rest
    | none => do
      let (st, rest) ← statement (skipBlanks s)
      let rest ← lineEnd? rest
      return st :: (← statements lines rest)

end CallGraphs.Toml
