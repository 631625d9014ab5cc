import CallGraphs.Config.Written
import CallGraphs.Proofs.Quoting
import CallGraphs.Toml.Document

/-!
# CallGraphs.Proofs.Statements

Numbers, truth values, lists of strings and lines are read back as they were
written, and lines under a header make a table with their keys and values.

A value of a line is followed by the line break.  Nothing of a written text is
blank, a comment or an empty line but what separates items and lines, so the
reader finds each token where it was written.

* `value_toDigits`, `value_writeFlag`, `value_writeStrings` — reading a value back;
* `statement_header`, `keyValue_bare` — reading a line back;
* `ReadsAs` — a text is read as a sequence of statements, built line by line;
* `ofStatements_table` — the table of a header with distinct keys.
-/

namespace CallGraphs.Toml

variable {c : Char} {s t rest : List Char} {n depth : Nat}

/-! ## blanks and lines -/

/-- A character in a class is none of those outside it. -/
theorem ne_of_class {p : Char → Bool} {d : Char} (hc : p c = true) (hd : p d = false) : c ≠ d :=
  ne_of_apply_ne p (by rw [hc, hd]; decide)

/-- Whether a character begins neither blanks, a comment nor a line break. -/
def startsToken (c : Char) : Bool := !isBlank c && c != '#' && c != '\n' && c != '\r'

/-- What begins with a token is left as it is. -/
theorem skipBlanks_token (h : startsToken c = true) : skipBlanks (c :: s) = c :: s := by
  have hblank : ¬isBlank c = true := by
    simp only [startsToken, Bool.and_eq_true, Bool.not_eq_true'] at h
    simp [h]
  exact List.dropWhile_cons_of_neg hblank

theorem skipBlanks_append (h : s.head?.any startsToken = true) (t : List Char) :
    skipBlanks (s ++ t) = s ++ t := by
  cases s with
  | nil => cases h
  | cons c cs => exact skipBlanks_token h

theorem skipBlanks_blank : skipBlanks (' ' :: s) = skipBlanks s := rfl

theorem skipComment_token (h : startsToken c = true) : skipComment (c :: s) = c :: s := by
  unfold skipComment
  split
  · simp_all [startsToken]
  · rfl

theorem newline?_token (h : startsToken c = true) : newline? (c :: s) = none := by
  simp only [startsToken, Bool.and_eq_true, bne_iff_ne] at h
  exact newline?_cons h.1.2 h.2

theorem skipLines_token (h : startsToken c = true) : skipLines (c :: s) = c :: s := by
  rw [skipLines, skipBlanks_token h, skipComment_token h]
  split
  · rename_i hnew
    rw [newline?_token h] at hnew
    cases hnew
  · rfl

theorem lineEnd?_token (h : startsToken c = true) : lineEnd? (c :: s) = none := by
  rw [lineEnd?, skipBlanks_token h, skipComment_token h]
  exact newline?_token h

theorem skipLines_newline : skipLines ('\n' :: s) = skipLines s := by
  rw [skipLines]
  rfl

theorem skipLines_blank : skipLines (' ' :: s) = skipLines s := by
  rw [skipLines.eq_def (' ' :: s), skipLines.eq_def s]
  rfl

/-! ## numbers -/

theorem digit?_of_isDigit (h : c.isDigit = true) : digit? 10 c = some (c.toNat - '0'.toNat) := by
  have hrange : '0' ≤ c ∧ c ≤ '9' := by
    simp only [Char.isDigit, Bool.and_eq_true, decide_eq_true_eq] at h
    exact h
  have hlt : c.toNat - 48 < 10 := by
    have : c.toNat ≤ '9'.toNat := hrange.2
    have : '9'.toNat = 57 := rfl
    omega
  simp [digit?, hrange, hlt]

/-- Reading digits gives their value. -/
theorem digitsFrom_of_isDigit {value : Nat} (h : ∀ c ∈ s, c.isDigit = true) :
    digitsFrom 10 value s = some (Nat.ofDigitChars 10 s value) := by
  induction s generalizing value with
  | nil => rfl
  | cons c cs ih =>
      obtain ⟨hc, hcs⟩ := List.forall_mem_cons.1 h
      rw [digitsFrom, digit?_of_isDigit hc]
      · rw [Nat.ofDigitChars_cons, Nat.mul_comm]
        exact ih hcs
      · rintro d ds rfl
        cases hc

theorem digits_of_isDigit (hs : s ≠ []) (h : ∀ c ∈ s, c.isDigit = true) :
    digits 10 s = some (Nat.ofDigitChars 10 s 0) := by
  obtain ⟨c, cs, rfl⟩ := List.exists_cons_of_ne_nil hs
  obtain ⟨hc, hcs⟩ := List.forall_mem_cons.1 h
  rw [digits, digit?_of_isDigit hc, Nat.ofDigitChars_cons, Nat.mul_zero, Nat.zero_add]
  exact digitsFrom_of_isDigit hcs

theorem isDigit_toDigits : ∀ c ∈ Nat.toDigits 10 n, c.isDigit = true := fun _ hc =>
  Nat.isDigit_of_mem_toDigits (by decide) (by decide) hc

/-- A number other than zero is written without a zero at its front. -/
theorem toDigits_ne_zero_cons (hn : n ≠ 0) : Nat.toDigits 10 n ≠ '0' :: s := by
  induction n using Nat.strongRecOn generalizing s with
  | ind n ih =>
      rw [Nat.toDigits_eq_if (by decide)]
      split
      · rename_i hlt
        intro h
        have hchar := Nat.toNat_digitChar_of_lt_ten hlt
        rw [List.head_eq_of_cons_eq h] at hchar
        exact hn (Nat.add_left_cancel hchar).symm
      · intro h
        obtain ⟨c, cs, hcs⟩ := List.exists_cons_of_ne_nil (Nat.toDigits_ne_nil (n := n / 10))
        rw [hcs] at h
        rw [List.head_eq_of_cons_eq h] at hcs
        exact ih (n / 10) (by omega) (by omega) hcs

theorem decimal_toDigits (n : Nat) : decimal (Nat.toDigits 10 n) = some n := by
  by_cases hn : n = 0
  · subst hn
    rfl
  · rw [decimal, digits_of_isDigit Nat.toDigits_ne_nil isDigit_toDigits,
      Nat.ofDigitChars_toDigits (by decide) (by decide)]
    · exact fun h => toDigits_ne_zero_cons hn h
    · exact fun _ h => toDigits_ne_zero_cons hn h

/-- Digits have neither a sign nor a base in front of them. -/
theorem integer?_of_isDigit (h : ∀ c ∈ s, c.isDigit = true) :
    integer? s = (decimal s).bind fun n => if n ≤ maxInteger then some (n : Int) else none := by
  have hsign : sign s = (false, s) := by
    unfold sign
    split
    · cases h '-' List.mem_cons_self
    · cases h '+' List.mem_cons_self
    · rfl
  rw [integer?]
  · rw [hsign]
    rfl
  · rintro t rfl
    cases h 'x' (by simp)
  · rintro t rfl
    cases h 'o' (by simp)
  · rintro t rfl
    cases h 'b' (by simp)

theorem integer?_toDigits (h : n ≤ maxInteger) :
    integer? (Nat.toDigits 10 n) = some (n : Int) := by
  rw [integer?_of_isDigit isDigit_toDigits, decimal_toDigits]
  exact if_pos h

/-! ## words -/

/-- A word is read up to the line break. -/
theorem word_append {v : Value} (hs : ∀ c ∈ s, isWordCharacter c = true)
    (hv : wordValue s = some v) : word (s ++ '\n' :: rest) = some (v, '\n' :: rest) := by
  have hword : (s ++ '\n' :: rest).takeWhile isWordCharacter = s := by
    rw [List.takeWhile_append_of_pos hs]
    exact List.append_nil s
  rw [word, hword, List.drop_left, hv]
  rfl

/-- Only brackets and braces begin a value with parts. -/
theorem value_eq_scalar (hbracket : c ≠ '[') (hbrace : c ≠ '\x7b') :
    value depth (c :: s) = scalar (c :: s) := by
  cases depth with
  | zero => rfl
  | succ depth =>
      rw [value]
      · rintro t ⟨⟩
        exact hbracket rfl
      · rintro t ⟨⟩
        exact hbrace rfl

theorem value_word {v : Value} (hword : s.all isWordCharacter = true) (hne : s ≠ [])
    (hv : wordValue s = some v) :
    value depth (s ++ '\n' :: rest) = some (v, '\n' :: rest) := by
  have hs := List.all_eq_true.1 hword
  obtain ⟨c, cs, rfl⟩ := List.exists_cons_of_ne_nil hne
  have hc (d : Char) (hd : isWordCharacter d = false) : c ≠ d :=
    ne_of_class (hs c List.mem_cons_self) hd
  rw [List.cons_append, value_eq_scalar (hc '[' rfl) (hc '\x7b' rfl), scalar]
  · exact word_append hs hv
  · exact fun _ h => hc '"' rfl (List.head_eq_of_cons_eq h)
  · exact fun _ h => hc '\'' rfl (List.head_eq_of_cons_eq h)

theorem isWordCharacter_of_isDigit (h : c.isDigit = true) : isWordCharacter c = true := by
  simp [isWordCharacter, Char.isAlphanum, h]

theorem value_toDigits (h : n ≤ maxInteger) (rest : List Char) :
    value depth (Nat.toDigits 10 n ++ '\n' :: rest) = some (.integer n, '\n' :: rest) := by
  have hword : (Nat.toDigits 10 n).all isWordCharacter = true :=
    List.all_eq_true.2 fun c hc => isWordCharacter_of_isDigit (isDigit_toDigits c hc)
  have hv : wordValue (Nat.toDigits 10 n) = some (.integer n) := by
    rw [wordValue, integer?_toDigits h]
  exact value_word hword Nat.toDigits_ne_nil hv

theorem value_writeFlag (b : Bool) (rest : List Char) :
    value depth (Config.writeFlag b ++ '\n' :: rest) = some (.boolean b, '\n' :: rest) := by
  cases b <;> exact value_word rfl (by decide) rfl

/-! ## lists of strings -/

/-- A written string begins with a quote. -/
theorem exists_writeString (s : List Char) :
    ∃ q t, writeString s = q :: t ∧ (q = '"' ∨ q = '\'') := by
  unfold writeString
  split
  · exact ⟨_, _, rfl, .inl rfl⟩
  · exact ⟨_, _, rfl, .inr rfl⟩
  · exact ⟨_, _, rfl, .inl rfl⟩
  · exact ⟨_, _, rfl, .inr rfl⟩

/-- A string as a value. -/
theorem value_writeString (s : List Char) (hbasic : rest.head? ≠ some '"')
    (hliteral : rest.head? ≠ some '\'') :
    value depth (writeString s ++ rest) = some (.string (String.ofList s), rest) := by
  have hread := quoted_writeString s hbasic hliteral
  obtain ⟨q, t, hq, rfl | rfl⟩ := exists_writeString s
  all_goals
    rw [hq, List.cons_append] at hread ⊢
    rw [value_eq_scalar (by decide) (by decide), scalar, hread]
    rfl

theorem skipLines_writeString (s rest : List Char) :
    skipLines (writeString s ++ rest) = writeString s ++ rest := by
  obtain ⟨q, t, hq, rfl | rfl⟩ := exists_writeString s
  all_goals
    rw [hq]
    exact skipLines_token (by decide)

/-- The values of a list of strings. -/
def stringValues (texts : List (List Char)) : List Value :=
  texts.map fun s => .string (String.ofList s)

theorem arrayItems_close {item : Reader Value} (h : skipLines s = ']' :: rest) :
    arrayItems item n s = some ([], rest) := by
  rw [arrayItems.eq_def]
  simp only [h]

/-- The last item, behind blanks and line breaks. -/
theorem arrayItems_last {item : Reader Value} {v : Value} {rest' : List Char}
    (hs : skipLines s = t) (hclose : t.head? ≠ some ']') (hitem : item t = some (v, rest))
    (hrest : skipLines rest = ']' :: rest') : arrayItems item (n + 1) s = some ([v], rest') := by
  rw [arrayItems.eq_def]
  simp only [hs]
  split
  · simp at hclose
  · simp only [hitem, hrest]

/-- An item before others. -/
theorem arrayItems_cons {item : Reader Value} {v : Value} {rest' : List Char}
    (hs : skipLines s = t) (hclose : t.head? ≠ some ']') (hitem : item t = some (v, rest))
    (hrest : skipLines rest = ',' :: rest') :
    arrayItems item (n + 1) s = (arrayItems item n rest').map fun (vs, s) => (v :: vs, s) := by
  rw [arrayItems.eq_def]
  simp only [hs]
  split
  · simp at hclose
  · simp only [hitem, hrest]

theorem head?_writeString (s rest : List Char) : (writeString s ++ rest).head? ≠ some ']' := by
  obtain ⟨q, t, hq, rfl | rfl⟩ := exists_writeString s <;> simp [hq]

/-- Items on lines of their own, from the line break before the first one.  The
line break after a comma goes with the next item, so that all items look the
same to the induction. -/
theorem arrayItems_writeItems (texts : List (List Char)) (h : texts.length ≤ n)
    (rest : List Char) :
    arrayItems (value depth) n ('\n' :: writeItems texts ++ ']' :: rest) =
      some (stringValues texts, rest) := by
  induction texts generalizing n with
  | nil =>
      refine arrayItems_close ?_
      rw [writeItems, List.cons_append, skipLines_newline]
      exact skipLines_token (by decide)
  | cons s texts ih =>
      obtain ⟨m, rfl⟩ : ∃ m, n = m + 1 := ⟨n - 1, by simp at h; omega⟩
      have hskip : skipLines ('\n' :: writeItems (s :: texts) ++ ']' :: rest) =
          writeString s ++ ',' :: '\n' :: writeItems texts ++ ']' :: rest := by
        simp only [writeItems, List.cons_append, List.nil_append, List.append_assoc,
          skipLines_newline, skipLines_blank, skipLines_writeString]
      have hread : value depth (writeString s ++ ',' :: '\n' :: writeItems texts ++ ']' :: rest) =
          some (.string (String.ofList s), ',' :: '\n' :: writeItems texts ++ ']' :: rest) := by
        rw [List.append_assoc]
        exact value_writeString s (by simp) (by simp)
      have hcomma : skipLines (',' :: '\n' :: writeItems texts ++ ']' :: rest) =
          ',' :: ('\n' :: writeItems texts ++ ']' :: rest) :=
        skipLines_token (by decide)
      rw [arrayItems_cons hskip (List.append_assoc _ _ _ ▸ head?_writeString s _) hread hcomma,
        ih (Nat.le_of_succ_le_succ h)]
      rfl

theorem length_le_length_writeItems (texts : List (List Char)) :
    texts.length ≤ (writeItems texts).length := by
  induction texts with
  | nil => exact Nat.le_refl _
  | cons s texts ih =>
      simp only [writeItems, List.length_append, List.length_cons]
      omega

/-- The text of an array has room for all its items. -/
theorem value_array {vs : List Value}
    (h : arrayItems (value depth) s.length s = some (vs, rest)) :
    value (depth + 1) ('[' :: s) = some (.array vs, rest) := by
  rw [value, h]
  rfl

/-- A list of strings, in one line or in several. -/
theorem value_writeStrings (texts : List (List Char)) (rest : List Char) :
    value (depth + 1) (writeStrings texts ++ rest) = some (.array (stringValues texts), rest) := by
  match texts with
  | [] => exact value_array (arrayItems_close (skipLines_token (by decide)))
  | [s] =>
      have htext : writeStrings [s] ++ rest = '[' :: (writeString s ++ ']' :: rest) := by
        simp [writeStrings]
      have hread : value depth (writeString s ++ ']' :: rest) =
          some (.string (String.ofList s), ']' :: rest) :=
        value_writeString s (by simp) (by simp)
      rw [htext]
      refine value_array ?_
      rw [List.length_append, List.length_cons, ← Nat.add_assoc]
      exact arrayItems_last (skipLines_writeString s _) (head?_writeString s _) hread
        (skipLines_token (by decide))
  | s :: t :: texts =>
      have htext : writeStrings (s :: t :: texts) ++ rest =
          '[' :: ('\n' :: writeItems (s :: t :: texts) ++ ']' :: rest) := by
        simp [writeStrings]
      have hlength := length_le_length_writeItems (s :: t :: texts)
      rw [htext]
      refine value_array (arrayItems_writeItems _ ?_ rest)
      rw [List.length_append]
      exact Nat.le_add_right_of_le (Nat.le_succ_of_le hlength)

/-! ## lines -/

theorem startsToken_of_isKeyCharacter (h : isKeyCharacter c = true) : startsToken c = true := by
  have hne (d : Char) (hd : isKeyCharacter d = false) : c ≠ d := ne_of_class h hd
  simp [startsToken, isBlank, hne ' ' rfl, hne '\t' rfl, hne '#' rfl, hne '\n' rfl, hne '\r' rfl]

theorem startsToken_writeFlag (b : Bool) : (Config.writeFlag b).head?.any startsToken = true := by
  cases b <;> rfl

theorem startsToken_toDigits (n : Nat) : (Nat.toDigits 10 n).head?.any startsToken = true := by
  obtain ⟨c, cs, hcs⟩ := List.exists_cons_of_ne_nil (Nat.toDigits_ne_nil (n := n) (b := 10))
  have hc : c.isDigit = true := isDigit_toDigits (n := n) c (by simp [hcs])
  rw [hcs]
  exact startsToken_of_isKeyCharacter (by simp [isKeyCharacter, Char.isAlphanum, hc])

theorem startsToken_writeStrings (texts : List (List Char)) :
    (writeStrings texts).head?.any startsToken = true := by
  match texts with
  | [] | [_] | _ :: _ :: _ => rfl

/-- Whether a text can be written as a bare key. -/
def isBareKey (s : List Char) : Bool := !s.isEmpty && s.all isKeyCharacter

theorem isBareKey_iff : isBareKey s = true ↔ s ≠ [] ∧ ∀ c ∈ s, isKeyCharacter c = true := by
  simp [isBareKey]

theorem exists_cons_of_isBareKey (h : isBareKey s = true) :
    ∃ c cs, s = c :: cs ∧ isKeyCharacter c = true := by
  obtain ⟨hne, hs⟩ := isBareKey_iff.1 h
  obtain ⟨c, cs, rfl⟩ := List.exists_cons_of_ne_nil hne
  exact ⟨c, cs, rfl, hs c List.mem_cons_self⟩

/-- A bare key is read up to the first character that cannot stand in it. -/
theorem simpleKey_bare (hs : isBareKey s = true) (hc : isKeyCharacter c = false)
    (rest : List Char) : simpleKey (s ++ c :: rest) = some (String.ofList s, c :: rest) := by
  have hbare : (s ++ c :: rest).takeWhile isKeyCharacter = s := by
    rw [List.takeWhile_append_of_pos (isBareKey_iff.1 hs).2,
      List.takeWhile_cons_of_neg (by simp [hc]), List.append_nil]
  obtain ⟨d, ds, rfl, hd⟩ := exists_cons_of_isBareKey hs
  rw [List.cons_append] at hbare ⊢
  rw [simpleKey]
  · simp only [hbare, if_neg (List.cons_ne_nil d ds)]
    rw [← List.cons_append, List.drop_left]
  · exact fun _ h => ne_of_class hd (d := '"') rfl (List.head_eq_of_cons_eq h)
  · exact fun _ h => ne_of_class hd (d := '\'') rfl (List.head_eq_of_cons_eq h)

/-- A bare key with blanks behind it is a dotted key without dots. -/
theorem dottedKey_bare (hs : isBareKey s = true) (hc : isKeyCharacter c = false)
    (hrest : skipBlanks (c :: rest) = t) (ht : t.head? ≠ some '.') :
    dottedKey (s ++ c :: rest) = some (([], String.ofList s), t) := by
  have hkey := simpleKey_bare hs hc rest
  obtain ⟨d, ds, rfl, hd⟩ := exists_cons_of_isBareKey hs
  have hparts : keyParts maxKeyParts (d :: ds ++ c :: rest) =
      some ([String.ofList (d :: ds)], t) := by
    rw [maxKeyParts, keyParts, List.cons_append,
      skipBlanks_token (startsToken_of_isKeyCharacter hd), ← List.cons_append, hkey]
    simp only [hrest]
    split
    · simp at ht
    · rfl
  rw [dottedKey, hparts]
  rfl

/-- A text that begins with a character of a key is no header. -/
theorem statement_of_isKeyCharacter (h : isKeyCharacter c = true) :
    statement (c :: s) = (keyValue (value maxDepth) (c :: s)).map fun (((path, key), v), s) =>
      (.assignment path key v, s) := by
  rw [statement]
  · exact fun _ hs => ne_of_class h (d := '[') rfl (List.head_eq_of_cons_eq hs)
  · exact fun _ hs => ne_of_class h (d := '[') rfl (List.head_eq_of_cons_eq hs)

/-- The header of a table is read up to the line break. -/
theorem statement_header {key : String} (hkey : isBareKey key.toList = true) (rest : List Char) :
    statement ('[' :: (key.toList ++ ']' :: rest)) = some (.table [] key, rest) := by
  have hdotted := dottedKey_bare hkey (c := ']') rfl (skipBlanks_token (s := rest) rfl) (by simp)
  rw [statement, hdotted]
  · simp only [String.ofList_toList]
  · intro t ht
    obtain ⟨c, cs, hcs, hc⟩ := exists_cons_of_isBareKey hkey
    rw [hcs] at ht
    exact ne_of_class hc (d := '[') rfl (List.head_eq_of_cons_eq ht)

/-- The assignment of a bare key is read up to the line break. -/
theorem keyValue_bare {key : String} {v : Value} (hkey : isBareKey key.toList = true)
    (hs : s.head?.any startsToken = true)
    (hv : value depth (s ++ '\n' :: rest) = some (v, '\n' :: rest)) :
    keyValue (value depth) (key.toList ++ ' ' :: '=' :: ' ' :: (s ++ '\n' :: rest)) =
      some ((([], key), v), '\n' :: rest) := by
  have hequals : skipBlanks (' ' :: '=' :: ' ' :: (s ++ '\n' :: rest)) =
      '=' :: ' ' :: (s ++ '\n' :: rest) :=
    skipBlanks_blank.trans (skipBlanks_token rfl)
  have hdotted := dottedKey_bare hkey (c := ' ') rfl hequals (by simp)
  have hend : skipBlanks ('\n' :: rest) = '\n' :: rest := List.dropWhile_cons_of_neg (by decide)
  rw [keyValue, hdotted]
  simp only [skipBlanks_blank, skipBlanks_append hs, hv, Option.map_some, hend,
    String.ofList_toList]

/-! ## texts -/

/-- A text is read as a sequence of statements, with room for as many lines as
it has characters. -/
def ReadsAs (s : List Char) (statements : List Statement) : Prop :=
  ∀ lines, s.length ≤ lines → Toml.statements lines s = some statements

theorem readsAs_nil : ReadsAs [] [] := by
  intro lines _
  cases lines <;> rfl

/-- A line with a statement, before other lines. -/
theorem ReadsAs.cons {statement : Statement} {statements : List Statement}
    (hrest : ReadsAs rest statements) (hc : startsToken c = true)
    (h : Toml.statement (c :: s) = some (statement, '\n' :: rest))
    (hlength : rest.length ≤ s.length) : ReadsAs (c :: s) (statement :: statements) := by
  intro lines hlines
  obtain ⟨n, rfl⟩ : ∃ n, lines = n + 1 := ⟨lines - 1, by simp at hlines; omega⟩
  have hend : lineEnd? ('\n' :: rest) = some rest := rfl
  have hstatements : Toml.statements n rest = some statements :=
    hrest n (Nat.le_trans hlength (Nat.le_of_succ_le_succ hlines))
  rw [Toml.statements, lineEnd?_token hc, skipBlanks_token hc, h]
  · simp only [Option.bind_eq_bind, Option.bind_some, hend, hstatements]
    rfl
  · exact nofun

/-- The header of a table, before other lines. -/
theorem ReadsAs.header {statements : List Statement} (hrest : ReadsAs rest statements)
    (key : String) (hkey : isBareKey key.toList = true) :
    ReadsAs ('[' :: (key.toList ++ ']' :: '\n' :: rest)) (.table [] key :: statements) :=
  hrest.cons rfl (statement_header hkey _) (by simp; omega)

/-- The line of a key, before other lines. -/
theorem ReadsAs.writeLine {v : Value} {statements : List Statement}
    (hrest : ReadsAs rest statements) (key : String) (hkey : isBareKey key.toList = true)
    (hs : s.head?.any startsToken = true)
    (hv : value maxDepth (s ++ '\n' :: rest) = some (v, '\n' :: rest)) :
    ReadsAs (Config.writeLine key s ++ rest) (.assignment [] key v :: statements) := by
  have htext : Config.writeLine key s ++ rest =
      key.toList ++ ' ' :: '=' :: ' ' :: (s ++ '\n' :: rest) := by
    simp [Config.writeLine]
  have hread := keyValue_bare hkey hs hv
  obtain ⟨c, cs, hcs, hc⟩ := exists_cons_of_isBareKey hkey
  rw [htext, hcs, List.cons_append]
  rw [hcs, List.cons_append] at hread
  refine hrest.cons (startsToken_of_isKeyCharacter hc) ?_ (by simp; omega)
  rw [statement_of_isKeyCharacter hc, hread]
  rfl

/-- The line of a field that may be unset, before other lines. -/
theorem ReadsAs.writeOption {α : Type} {write : α → List Char} {v : α → Value}
    {statements : List Statement} (hrest : ReadsAs rest statements) (key : String) (o : Option α)
    (hkey : isBareKey key.toList = true) (hs : ∀ a ∈ o, (write a).head?.any startsToken = true)
    (hv : ∀ a ∈ o, value maxDepth (write a ++ '\n' :: rest) = some (v a, '\n' :: rest)) :
    ReadsAs (Config.writeOption key write o ++ rest)
      ((o.map fun a => .assignment [] key (v a)).toList ++ statements) := by
  cases o with
  | none => exact hrest
  | some a => exact hrest.writeLine key hkey (hs a rfl) (hv a rfl)

/-! ## the table of a header -/

/-- A new key is added behind the ones that are defined. -/
theorem Entries.define_of_not_mem {key : String} {entries : Entries} (v : Value)
    (h : key ∉ entries.map Prod.fst) : entries.define key v = some (entries ++ [(key, v)]) := by
  induction entries with
  | nil => rfl
  | cons e es ih =>
      rw [List.map_cons, List.mem_cons, not_or] at h
      have hes : update key _ es = some (es ++ [(key, v)]) := ih h.2
      rw [define, update, if_neg (Ne.symm h.1), hes]
      rfl

namespace Document

/-- The assignment of a key of a table. -/
def assignment (field : String × Value) : Statement := .assignment [] field.1 field.2

/-- A document that consists of the table of one header, which is in force. -/
def ofTable (name : String) (fields : Entries) : Document :=
  ⟨[(name, .table .header fields)], [name]⟩

/-- An assignment of a new key goes to the table of the header in force. -/
theorem add_assignment (name : String) {fields : Entries} {field : String × Value}
    (h : field.1 ∉ fields.map Prod.fst) :
    (ofTable name fields).add (assignment field) = some (ofTable name (fields ++ [field])) := by
  simp only [ofTable, assignment, add, Entries.within, Entries.update, if_pos, Entries.assign,
    Entries.define_of_not_mem field.2 h, Option.map_some]

/-- Lines with further keys, `before` being the fields that are read. -/
theorem foldlM_assignment (name : String) (before : Entries) {fields : Entries}
    (h : ((before ++ fields).map Prod.fst).Nodup) :
    (fields.map assignment).foldlM add (ofTable name before) =
      some (ofTable name (before ++ fields)) := by
  induction fields generalizing before with
  | nil => rw [List.append_nil]; rfl
  | cons field fields ih =>
      have hnew : field.1 ∉ before.map Prod.fst := by
        simp only [List.map_append, List.map_cons, List.nodup_append] at h
        exact fun hmem => h.2.2 _ hmem _ List.mem_cons_self rfl
      rw [List.map_cons, List.foldlM_cons, add_assignment name hnew]
      refine (ih _ ?_).trans ?_
      · rwa [List.append_assoc]
      · rw [List.append_assoc]
        rfl

/-- A header and lines with distinct keys make a table with these keys and
their values. -/
theorem ofStatements_table (name : String) {fields : Entries}
    (h : (fields.map Prod.fst).Nodup) :
    ofStatements (.table [] name :: fields.map assignment) =
      some [(name, .table .header fields)] := by
  have hopen : empty.add (.table [] name) = some (ofTable name []) := rfl
  rw [ofStatements, List.foldlM_cons, hopen]
  exact congrArg (Option.map _) (foldlM_assignment name [] h)

end Document

end CallGraphs.Toml
