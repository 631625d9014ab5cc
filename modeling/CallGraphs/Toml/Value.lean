/-!
# CallGraphs.Toml.Value

Values of the TOML format and the rules by which dotted keys and headers
build tables.

A table remembers how it came about, since that decides what may still be
added to it:

* an *inline* table is complete as it stands;
* a table of a *header* gets its keys below that header only;
* a table that is *implied* by the header of a table inside it may still
  get a header of its own;
* a table made by *dotted* keys may get more dotted keys.

Main operations: `assign` for a key with a value, `openTable` for a header,
`openElement` for a header of an array of tables.  Each of them refuses what
was defined before.
-/

namespace CallGraphs.Toml

/-- How a table came about. -/
inductive Origin where
  | inline
  | header
  | implied
  | dotted
  deriving DecidableEq, Repr

/-- A value.  Of floats, dates and times only the kind is kept. -/
inductive Value where
  | string (text : String)
  | integer (n : Int)
  | float
  | boolean (b : Bool)
  | moment
  | array (items : List Value)
  | table (origin : Origin) (entries : List (String × Value))
  | tables (elements : List (List (String × Value)))

/-- The keys of a table with their values, in the order of definition. -/
abbrev Entries := List (String × Value)

namespace Entries

/-- The value of a key. -/
def get? (key : String) : Entries → Option Value
  | [] => none
  | (k, v) :: rest => if k = key then some v else get? key rest

/-- Replace the value of a key, which may be absent, by what `f` makes of
it. -/
def update (key : String) (f : Option Value → Option Value) : Entries → Option Entries
  | [] => (f none).map fun v => [(key, v)]
  | (k, v) :: rest =>
    if k = key then (f (some v)).map fun w => (k, w) :: rest
    else (update key f rest).map fun rest => (k, v) :: rest

/-- Change the last of several tables. -/
def updateLast (f : Entries → Option Entries) : List Entries → Option (List Entries)
  | [] => none
  | [e] => (f e).map fun e => [e]
  | e :: es => (updateLast f es).map fun es => e :: es

/-! ## keys with values -/

/-- Give a key that is not yet defined its value. -/
def define (key : String) (value : Value) (entries : Entries) : Option Entries :=
  entries.update key fun
    | none => some value
    | some _ => none

/-- Give a dotted key its value.  The tables named by `path` are made as
needed; the last of them has to be one made by dotted keys. -/
def assign (key : String) (value : Value) : (path : List String) → Entries → Option Entries
  | [], entries => entries.define key value
  | k :: path, entries =>
    entries.update k fun
      | none => (assign key value path []).map (.table .dotted)
      | some (.table .dotted inner) => (assign key value path inner).map (.table .dotted)
      | some (.table .implied inner) =>
        if path = [] then none else (assign key value path inner).map (.table .implied)
      | some (.tables elements) =>
        if path = [] then none
        else (updateLast (assign key value path) elements).map .tables
      | some _ => none

/-! ## headers -/

/-- Change the table named by `path`.  The tables on the way are implied as
needed, and of an array of tables the last one is meant. -/
def within (f : Entries → Option Entries) : (path : List String) → Entries → Option Entries
  | [], entries => f entries
  | k :: path, entries =>
    entries.update k fun
      | none => (within f path []).map (.table .implied)
      | some (.table .inline _) => none
      | some (.table origin inner) => (within f path inner).map (.table origin)
      | some (.tables elements) => (updateLast (within f path) elements).map .tables
      | some _ => none

/-- Open the table `key` by its header: it is new, or was only implied so
far. -/
def openTable (key : String) (entries : Entries) : Option Entries :=
  entries.update key fun
    | none => some (.table .header [])
    | some (.table .implied inner) => some (.table .header inner)
    | some _ => none

/-- Open a further element of the array of tables `key` by its header. -/
def openElement (key : String) (entries : Entries) : Option Entries :=
  entries.update key fun
    | none => some (.tables [[]])
    | some (.tables elements) => some (.tables (elements ++ [[]]))
    | some _ => none

end Entries

end CallGraphs.Toml
