import CallGraphs.Toml.Character

/-!
# CallGraphs.Toml.Quoted

Reading the four written forms of a string.  A *basic* string stands in
double quotes and has escapes, a *literal* string stands in single quotes
and has none; each has a form with three quotes on either side that may run
over several lines.

In a form with three quotes the first line break is dropped, the other ones
become line feeds, and up to two quotes may touch the closing ones.  In the
basic one a backslash at the end of a line swallows the line break and all
blanks and line breaks after it.
-/

namespace CallGraphs.Toml

/-- A reader takes a value from the front of a text, if there is one, and
tells what is left. -/
abbrev Reader (α : Type) := List Char → Option (α × List Char)

/-- Put a character before what was read. -/
def consRead (c : Char) (r : List Char × List Char) : List Char × List Char := (c :: r.1, r.2)

/-! ## escapes -/

/-- Read `count` hexadecimal digits, `value` being the value of those
before. -/
def hexDigits : (count value : Nat) → Reader Nat
  | 0, value, s => some (value, s)
  | count + 1, value, c :: cs =>
    match digit? 16 c with
    | some d => hexDigits count (value * 16 + d) cs
    | none => none
  | _ + 1, _, [] => none

/-- Read the code point of a character in `count` hexadecimal digits. -/
def codePoint (count : Nat) : Reader Char := fun s =>
  match hexDigits count 0 s with
  | some (n, rest) => if n.isValidChar then some (Char.ofNat n, rest) else none
  | none => none

/-- Read what follows the backslash of an escape. -/
def escape : Reader Char
  | 'b' :: rest => some ('\x08', rest)
  | 't' :: rest => some ('\t', rest)
  | 'n' :: rest => some ('\n', rest)
  | 'f' :: rest => some ('\x0c', rest)
  | 'r' :: rest => some ('\r', rest)
  | '"' :: rest => some ('"', rest)
  | '\\' :: rest => some ('\\', rest)
  | 'u' :: rest => codePoint 4 rest
  | 'U' :: rest => codePoint 8 rest
  | _ => none

theorem hexDigits_le {count value n : Nat} {s rest : List Char}
    (h : hexDigits count value s = some (n, rest)) : rest.length ≤ s.length := by
  induction count generalizing value s with
  | zero => simp_all [hexDigits]
  | succ count ih =>
      cases s with
      | nil => simp [hexDigits] at h
      | cons c cs =>
          rw [hexDigits] at h
          split at h
          · exact Nat.le_succ_of_le (ih h)
          · cases h

theorem codePoint_le {count : Nat} {c : Char} {s rest : List Char}
    (h : codePoint count s = some (c, rest)) : rest.length ≤ s.length := by
  unfold codePoint at h
  split at h
  · rename_i hd
    split at h
    · simp only [Option.some.injEq, Prod.mk.injEq] at h
      exact h.2 ▸ hexDigits_le hd
    · cases h
  · cases h

/-- An escape takes at least one character. -/
theorem escape_lt {c : Char} {s rest : List Char} (h : escape s = some (c, rest)) :
    rest.length < s.length := by
  unfold escape at h
  split at h
  case h_8 | h_9 => exact Nat.lt_succ_of_le (codePoint_le h)
  case h_10 => cases h
  all_goals
    simp only [Option.some.injEq, Prod.mk.injEq] at h
    simp [← h.2]

/-! ## one line -/

/-- Read a basic string after its opening quote. -/
def basic : Reader (List Char)
  | [] => none
  | c :: cs =>
    if c = '"' then some ([], cs)
    else if c = '\\' then
      match _h : escape cs with
      | some (d, rest) => (basic rest).map (consRead d)
      | none => none
    else if isPlain c then (basic cs).map (consRead c)
    else none
termination_by s => s.length
decreasing_by
  · have := escape_lt _h
    simp only [List.length_cons]
    omega
  · simp

/-- Read a literal string after its opening quote. -/
def literal : Reader (List Char)
  | [] => none
  | c :: cs =>
    if c = '\'' then some ([], cs)
    else if isPlain c then (literal cs).map (consRead c)
    else none

/-! ## several lines -/

/-- The end of a string with three quotes on either side: up to two quotes
of its text, then the closing ones. -/
def closing (quote : Char) : Reader (List Char) := fun s =>
  let run := (s.takeWhile (· = quote)).length
  let extra := min (run - 3) 2
  if 3 ≤ run then some (List.replicate extra quote, s.drop (3 + extra)) else none

/-- What follows the blanks and line breaks at the front. -/
def skipSpace (s : List Char) : List Char :=
  match _h : newline? (skipBlanks s) with
  | some rest => skipSpace rest
  | none => skipBlanks s
termination_by s.length
decreasing_by
  have := newline?_lt _h
  have := length_skipBlanks_le s
  omega

theorem length_skipSpace_le (s : List Char) : (skipSpace s).length ≤ s.length := by
  fun_induction skipSpace s with
  | case1 s rest h ih =>
      have := newline?_lt h
      have := length_skipBlanks_le s
      omega
  | case2 s h => exact length_skipBlanks_le s

/-- What follows the backslash at the end of a line: the line break with the
blanks around it and all further blank lines. -/
def continued? (s : List Char) : Option (List Char) := (newline? (skipBlanks s)).map skipSpace

theorem continued?_lt {s rest : List Char} (h : continued? s = some rest) :
    rest.length < s.length := by
  obtain ⟨r, hr, rfl⟩ := Option.map_eq_some_iff.1 h
  have := newline?_lt hr
  have := length_skipBlanks_le s
  have := length_skipSpace_le r
  omega

/-- Read a basic string of several lines after its opening quotes and the
line break there. -/
def multilineBasic (s : List Char) : Option (List Char × List Char) :=
  match closing '"' s with
  | some r => some r
  | none =>
    match s with
    | [] => none
    | c :: cs =>
      if c = '\\' then
        match _h : continued? cs with
        | some rest => multilineBasic rest
        | none =>
          match _h : escape cs with
          | some (d, rest) => (multilineBasic rest).map (consRead d)
          | none => none
      else
        match _h : newline? (c :: cs) with
        | some rest => (multilineBasic rest).map (consRead '\n')
        | none => if isPlain c then (multilineBasic cs).map (consRead c) else none
termination_by s.length
decreasing_by
  · have := continued?_lt _h
    simp only [List.length_cons]
    omega
  · have := escape_lt _h
    simp only [List.length_cons]
    omega
  · exact newline?_lt _h
  · simp

/-- Read a literal string of several lines after its opening quotes and the
line break there. -/
def multilineLiteral (s : List Char) : Option (List Char × List Char) :=
  match closing '\'' s with
  | some r => some r
  | none =>
    match s with
    | [] => none
    | c :: cs =>
      match _h : newline? (c :: cs) with
      | some rest => (multilineLiteral rest).map (consRead '\n')
      | none => if isPlain c then (multilineLiteral cs).map (consRead c) else none
termination_by s.length
decreasing_by
  · exact newline?_lt _h
  · simp

/-! ## strings -/

/-- What follows a line break at the front, or the whole text. -/
def dropNewline (s : List Char) : List Char := (newline? s).getD s

/-- Read a string in one of the four forms. -/
def quoted : Reader (List Char)
  | '"' :: '"' :: '"' :: rest => multilineBasic (dropNewline rest)
  | '\'' :: '\'' :: '\'' :: rest => multilineLiteral (dropNewline rest)
  | '"' :: rest => basic rest
  | '\'' :: rest => literal rest
  | _ => none

end CallGraphs.Toml
