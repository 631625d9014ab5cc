import CallGraphs.Toml.Reading

/-!
# CallGraphs.Toml.Document

Reading a whole TOML document into a table.  The statements are taken in
order, each key being meant in the table of the last header before it.
-/

namespace CallGraphs.Toml

/-- A document read in part: the table of the whole, and the header in
force. -/
structure Document where
  entries : Entries
  header : List String

namespace Document

/-- The document without statements. -/
def empty : Document := ⟨[], []⟩

/-- Take a further statement. -/
def add (d : Document) : Statement → Option Document
  | .assignment path key v =>
    (d.entries.within (Entries.assign key v path) d.header).map fun entries =>
      { d with entries }
  | .table path key =>
    (d.entries.within (Entries.openTable key) path).map fun entries =>
      ⟨entries, path ++ [key]⟩
  | .element path key =>
    (d.entries.within (Entries.openElement key) path).map fun entries =>
      ⟨entries, path ++ [key]⟩

/-- The table that the statements of a document make. -/
def ofStatements (statements : List Statement) : Option Entries :=
  (statements.foldlM add empty).map (·.entries)

/-- The text without a byte order mark at its front. -/
def dropMark : List Char → List Char
  | '\uFEFF' :: rest => rest
  | s => s

/-- Read a document. -/
def read? (text : String) : Option Entries :=
  let s := dropMark text.toList
  (statements s.length s).bind ofStatements

end Document

end CallGraphs.Toml
