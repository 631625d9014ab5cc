import CallGraphs.Toml.Quoted
import CallGraphs.Toml.Writing
import Mathlib.Data.List.TakeWhile

/-!
# CallGraphs.Proofs.Quoting

A written string is read back as it was, in front of any text that does not
begin with a quote.  The four forms are treated one by one; what a form needs to
know of the text it writes comes from the choice of the form.

In the forms with three quotes the reader looks for the end of the string at
every character.  The end is not seen too early because at every place at most
two quotes follow one another, and not missed because the quotes of the text that
touch the closing ones belong to the text.

* `escaped_cases` — a character is escaped, or it needs no escape;
* `basic_writeBasic`, `literal_append` — the forms in one line;
* `multilineBasic_append`, `multilineLiteral_append` — the forms of several lines;
* `quoted_writeString` — reading a written string.
-/

namespace CallGraphs.Toml

variable {c q : Char} {s t rest : List Char}

/-! ## characters -/

theorem isPlain_eq (c : Char) : isPlain c = (!isControl c && c != '\n') := by
  by_cases htab : c = '\t'
  · subst htab
    rfl
  · by_cases hline : c = '\n'
    · subst hline
      rfl
    · have htab' : (c != '\t') = true := bne_iff_ne.2 htab
      have hline' : (c != '\n') = true := bne_iff_ne.2 hline
      rw [Bool.eq_iff_iff]
      simp [isPlain, isControl, htab, htab', hline']

theorem isPlain_of_not_isControl (h : isControl c = false) (hline : c ≠ '\n') :
    isPlain c = true := by
  simp [isPlain_eq, h, hline]

/-- Only a line feed or a carriage return begins a line break. -/
theorem newline?_cons (hline : c ≠ '\n') (hreturn : c ≠ '\r') : newline? (c :: s) = none := by
  unfold newline?
  split <;> simp_all

theorem newline?_of_isPlain (h : isPlain c = true) : newline? (c :: s) = none := by
  refine newline?_cons ?_ ?_ <;> rintro rfl <;> cases h

/-! ## escapes -/

theorem digit?_hexDigit {n : Nat} (h : n < 16) : digit? 16 (hexDigit n) = some n := by
  revert n
  decide

/-- The escape of a code point in four digits. -/
theorem codePoint_digits (h : c.toNat < 65536) (rest : List Char) :
    codePoint 4 (hexDigit (c.toNat / 4096 % 16) :: hexDigit (c.toNat / 256 % 16) ::
      hexDigit (c.toNat / 16 % 16) :: hexDigit (c.toNat % 16) :: rest) = some (c, rest) := by
  have hdigit (n : Nat) : digit? 16 (hexDigit (n % 16)) = some (n % 16) :=
    digit?_hexDigit (Nat.mod_lt n (by decide))
  have hvalue : (((0 * 16 + c.toNat / 4096 % 16) * 16 + c.toNat / 256 % 16) * 16 +
      c.toNat / 16 % 16) * 16 + c.toNat % 16 = c.toNat := by
    omega
  simp only [codePoint, hexDigits, hdigit, hvalue]
  rw [if_pos (show c.toNat.isValidChar from c.valid), Char.ofNat_toNat]

/-- A control character is escaped; another character is escaped, or is
written as it is and may stand in a string.  A line feed is left aside, since
the two basic forms treat it differently. -/
theorem escaped_cases (hline : c ≠ '\n') :
    (∃ e, escaped c = '\\' :: e ∧ ∀ rest, escape (e ++ rest) = some (c, rest)) ∨
      escaped c = [c] ∧ c ≠ '\\' ∧ isPlain c = true := by
  by_cases hletter : c = '\x08' ∨ c = '\t' ∨ c = '\x0c' ∨ c = '\r' ∨ c = '\\'
  · obtain rfl | rfl | rfl | rfl | rfl := hletter <;> exact .inl ⟨_, rfl, fun _ => rfl⟩
  · simp only [not_or] at hletter
    obtain ⟨h₁, h₂, h₃, h₄, hbackslash⟩ := hletter
    rw [escaped, if_neg h₁, if_neg h₂, if_neg h₃, if_neg h₄, if_neg hbackslash]
    cases hcontrol : isControl c with
    | true =>
        have hsmall : c.toNat < 65536 := by
          simp only [isControl, Bool.or_eq_true, Bool.and_eq_true, decide_eq_true_eq] at hcontrol
          omega
        exact .inl ⟨_, rfl, codePoint_digits hsmall⟩
    | false => exact .inr ⟨rfl, hbackslash, isPlain_of_not_isControl hcontrol hline⟩

/-- An escape begins with neither a quote nor a line break. -/
theorem exists_escaped (hquote : c ≠ '"') (hline : c ≠ '\n') :
    ∃ d e, escaped c = d :: e ∧ d ≠ '"' ∧ ∀ s, newline? (d :: s) = none := by
  obtain ⟨e, he, -⟩ | ⟨he, -, hplain⟩ := escaped_cases hline
  · exact ⟨_, e, he, by decide, fun _ => rfl⟩
  · exact ⟨c, [], he, hquote, fun _ => newline?_of_isPlain hplain⟩

theorem escape_quote : escape ('"' :: rest) = some ('"', rest) := rfl

/-- What can be read as an escape is no line break. -/
theorem continued?_of_escape (h : escape s = some (c, rest)) : continued? s = none := by
  unfold escape at h
  split at h
  case h_10 => cases h
  all_goals rfl

/-! ## one line -/

theorem basic_quote : basic ('"' :: rest) = some ([], rest) := by
  rw [basic, if_pos rfl]

theorem basic_escape (h : escape s = some (c, rest)) :
    basic ('\\' :: s) = (basic rest).map (consRead c) := by
  rw [basic, if_neg (by decide), if_pos rfl]
  split <;> simp_all

theorem basic_plain (hquote : c ≠ '"') (hbackslash : c ≠ '\\') (h : isPlain c = true) :
    basic (c :: s) = (basic s).map (consRead c) := by
  rw [basic, if_neg hquote, if_neg hbackslash, if_pos h]

/-- Reading what is written of one character. -/
theorem basic_written (c : Char) (rest : List Char) :
    basic ((if c = '"' then ['\\', '"'] else if c = '\n' then ['\\', 'n'] else escaped c) ++ rest) =
      (basic rest).map (consRead c) := by
  by_cases hquote : c = '"'
  · subst hquote
    exact basic_escape rfl
  by_cases hline : c = '\n'
  · subst hline
    exact basic_escape rfl
  rw [if_neg hquote, if_neg hline]
  obtain ⟨e, he, hread⟩ | ⟨he, hbackslash, hplain⟩ := escaped_cases hline
  · rw [he]
    exact basic_escape (hread rest)
  · rw [he]
    exact basic_plain hquote hbackslash hplain

/-- A basic string in one line. -/
theorem basic_writeBasic (s rest : List Char) :
    basic (writeBasic s ++ '"' :: rest) = some (s, rest) := by
  induction s with
  | nil => exact basic_quote
  | cons c cs ih =>
      rw [writeBasic, List.append_assoc, basic_written, ih]
      rfl

/-- A literal string in one line. -/
theorem literal_append (h : ∀ c ∈ s, isPlain c = true ∧ c ≠ '\'') (rest : List Char) :
    literal (s ++ '\'' :: rest) = some (s, rest) := by
  induction s with
  | nil => rfl
  | cons c cs ih =>
      obtain ⟨⟨hplain, hquote⟩, hcs⟩ := List.forall_mem_cons.1 h
      rw [List.cons_append, literal, if_neg hquote, if_pos hplain, ih hcs]
      rfl

/-! ## the closing quotes -/

theorem closing_of_ne (h : c ≠ q) : closing q (c :: s) = none := by
  simp [closing, h]

/-- Up to two quotes at the end of a text touch the closing ones. -/
theorem closing_of_all (hs : ∀ c ∈ s, c = q) (hlength : s.length ≤ 2)
    (hrest : rest.head? ≠ some q) : closing q (s ++ q :: q :: q :: rest) = some (s, rest) := by
  have hnone : rest.takeWhile (· = q) = [] := by
    cases rest with
    | nil => rfl
    | cons c cs => exact List.takeWhile_cons_of_neg (by simpa using hrest)
  have hrun : ((s ++ q :: q :: q :: rest).takeWhile (· = q)).length = s.length + 3 := by
    rw [List.takeWhile_append_of_pos (by simpa using hs)]
    simp [hnone]
  have hextra : min (s.length + 3 - 3) 2 = s.length := by
    omega
  have hdrop : (s ++ q :: q :: q :: rest).drop (3 + s.length) = rest := by
    rw [Nat.add_comm, List.drop_length_add_append]
    rfl
  rw [closing, hrun, hextra, if_pos (Nat.le_add_left 3 _), hdrop,
    ← List.eq_replicate_of_mem hs]

/-- In front of its closing quotes, a text with at most two quotes at its front
either consists of them or is not at its end. -/
theorem closing_append (hfront : (s.takeWhile (· = q)).length ≤ 2)
    (hrest : rest.head? ≠ some q) :
    (∀ c ∈ s, c = q) ∧ closing q (s ++ q :: q :: q :: rest) = some (s, rest) ∨
      closing q (s ++ q :: q :: q :: rest) = none := by
  by_cases hself : s.takeWhile (· = q) = s
  · have hs : ∀ c ∈ s, c = q := by simpa using List.takeWhile_eq_self_iff.1 hself
    exact .inl ⟨hs, closing_of_all hs (hself ▸ hfront) hrest⟩
  · have hlength := mt (List.takeWhile_prefix _).eq_of_length hself
    right
    rw [closing, List.takeWhile_append, if_neg hlength, if_neg (by omega)]

/-! ## runs of quotes -/

/-- A run at the front goes on with the run before it. -/
theorem length_takeWhile_le_longestRun (q : Char) (run : Nat) (s : List Char) :
    run + (s.takeWhile (· = q)).length ≤ longestRun q run s := by
  induction s generalizing run with
  | nil => exact Nat.le_refl _
  | cons c cs ih =>
      rw [longestRun]
      split
      · rename_i hc
        have := ih (run + 1)
        simp only [hc, decide_true, List.takeWhile_cons_of_pos, List.length_cons]
        omega
      · rename_i hc
        simp only [hc, decide_false, Bool.false_eq_true, not_false_eq_true,
          List.takeWhile_cons_of_neg, List.length_nil]
        omega

/-- The runs of a text are those of its rest. -/
theorem exists_longestRun_le {n run : Nat} (h : longestRun q run (c :: s) ≤ n) :
    ∃ run', longestRun q run' s ≤ n := by
  rw [longestRun] at h
  split at h
  · exact ⟨_, h⟩
  · exact ⟨0, by omega⟩

/-- A character other than a quote is not written with a quote at its front. -/
theorem exists_written (hquote : c ≠ '"') :
    ∃ d e, (if c = '\n' then ['\n'] else escaped c) = d :: e ∧ d ≠ '"' := by
  split
  · exact ⟨_, _, rfl, by decide⟩
  · rename_i hline
    obtain ⟨d, e, he, hd, -⟩ := exists_escaped hquote hline
    exact ⟨d, e, he, hd⟩

/-- At no place of a written text more than two quotes follow one another. -/
theorem length_takeWhile_writeMultilineBasic {run : Nat} (hrun : run ≤ 2) (s : List Char) :
    run + ((writeMultilineBasic run s).takeWhile (· = '"')).length ≤ 2 := by
  induction s generalizing run with
  | nil => exact hrun
  | cons c cs ih =>
      rw [writeMultilineBasic]
      split
      · split
        · simp [hrun]
        · have := @ih (run + 1) (by omega)
          simp only [decide_true, List.takeWhile_cons_of_pos, List.length_cons]
          omega
      · rename_i hquote
        obtain ⟨d, e, he, hd⟩ := exists_written hquote
        simpa [he, hd] using hrun

/-- A text that is written with quotes alone consists of them. -/
theorem writeMultilineBasic_eq_self {run : Nat} (h : ∀ c ∈ writeMultilineBasic run s, c = '"') :
    writeMultilineBasic run s = s := by
  induction s generalizing run with
  | nil => rfl
  | cons c cs ih =>
      rw [writeMultilineBasic] at h ⊢
      split at h
      · rename_i hquote
        split at h
        · simp at h
        · rename_i hrun
          rw [if_pos hquote, if_neg hrun, ih (List.forall_mem_cons.1 h).2, hquote]
      · rename_i hquote
        obtain ⟨d, e, he, hd⟩ := exists_written hquote
        exact absurd (h d (by simp [he])) hd

/-! ## several lines -/

theorem multilineBasic_of_closing {r : List Char × List Char} (h : closing '"' s = some r) :
    multilineBasic s = some r := by
  rw [multilineBasic.eq_def, h]

theorem multilineBasic_escape (h : escape s = some (c, rest)) :
    multilineBasic ('\\' :: s) = (multilineBasic rest).map (consRead c) := by
  rw [multilineBasic, closing_of_ne (by decide), continued?_of_escape h]
  simp only [if_pos]
  split <;> simp_all

theorem multilineBasic_newline :
    multilineBasic ('\n' :: s) = (multilineBasic s).map (consRead '\n') := by
  rw [multilineBasic, closing_of_ne (by decide)]
  rfl

theorem multilineBasic_plain (hclosing : closing '"' (c :: s) = none) (hbackslash : c ≠ '\\')
    (h : isPlain c = true) :
    multilineBasic (c :: s) = (multilineBasic s).map (consRead c) := by
  rw [multilineBasic, hclosing, newline?_of_isPlain h]
  simp only [if_neg hbackslash, if_pos h]

/-- Reading what is written of a character other than a quote. -/
theorem multilineBasic_written (hquote : c ≠ '"') (rest : List Char) :
    multilineBasic ((if c = '\n' then ['\n'] else escaped c) ++ rest) =
      (multilineBasic rest).map (consRead c) := by
  split
  · subst_vars
    exact multilineBasic_newline
  · rename_i hline
    obtain ⟨e, he, hread⟩ | ⟨he, hbackslash, hplain⟩ := escaped_cases hline
    · rw [he]
      exact multilineBasic_escape (hread rest)
    · rw [he]
      exact multilineBasic_plain (closing_of_ne hquote) hbackslash hplain

/-- A basic string of several lines, `run` being the length of the run of quotes
that was read just before. -/
theorem multilineBasic_append {run : Nat} (hrun : run ≤ 2) (s : List Char)
    (hrest : rest.head? ≠ some '"') :
    multilineBasic (writeMultilineBasic run s ++ '"' :: '"' :: '"' :: rest) = some (s, rest) := by
  induction s generalizing run with
  | nil => exact multilineBasic_of_closing (closing_of_all (s := []) (by simp) (by decide) hrest)
  | cons c cs ih =>
      have hfront := length_takeWhile_writeMultilineBasic hrun (c :: cs)
      obtain ⟨hall, hclosing⟩ | hclosing :=
        closing_append (s := writeMultilineBasic run (c :: cs)) (q := '"') (by omega) hrest
      -- Only quotes are left, and they are read together with the closing ones.
      · rw [multilineBasic_of_closing hclosing, writeMultilineBasic_eq_self hall]
      · rw [writeMultilineBasic] at hclosing ⊢
        by_cases hquote : c = '"'
        · subst hquote
          by_cases hlast : run = 2
          · rw [if_pos rfl, if_pos hlast, List.cons_append, List.cons_append,
              multilineBasic_escape escape_quote, ih (by decide)]
            rfl
          · rw [if_pos rfl, if_neg hlast, List.cons_append] at hclosing ⊢
            rw [multilineBasic_plain hclosing (by decide) rfl, ih (by omega)]
            rfl
        · rw [if_neg hquote, List.append_assoc, multilineBasic_written hquote, ih (by decide)]
          rfl

theorem multilineLiteral_of_closing {r : List Char × List Char} (h : closing '\'' s = some r) :
    multilineLiteral s = some r := by
  rw [multilineLiteral.eq_def, h]

theorem multilineLiteral_newline :
    multilineLiteral ('\n' :: s) = (multilineLiteral s).map (consRead '\n') := by
  rw [multilineLiteral, closing_of_ne (by decide)]
  rfl

theorem multilineLiteral_plain (hclosing : closing '\'' (c :: s) = none) (h : isPlain c = true) :
    multilineLiteral (c :: s) = (multilineLiteral s).map (consRead c) := by
  rw [multilineLiteral, hclosing, newline?_of_isPlain h]
  simp only [if_pos h]

/-- A literal string of several lines, where each suffix keeps a bound on its
runs of quotes. -/
theorem multilineLiteral_append {run : Nat} (hcontrol : ∀ c ∈ s, isControl c = false)
    (hruns : longestRun '\'' run s ≤ 2) (hrest : rest.head? ≠ some '\'') :
    multilineLiteral (s ++ '\'' :: '\'' :: '\'' :: rest) = some (s, rest) := by
  induction s generalizing run with
  | nil => exact multilineLiteral_of_closing (closing_of_all (s := []) (by simp) (by decide) hrest)
  | cons c cs ih =>
      obtain ⟨hc, hcs⟩ := List.forall_mem_cons.1 hcontrol
      obtain ⟨run', hruns'⟩ := exists_longestRun_le hruns
      have hfront := length_takeWhile_le_longestRun '\'' run (c :: cs)
      obtain ⟨-, hclosing⟩ | hclosing :=
        closing_append (s := c :: cs) (q := '\'') (by omega) hrest
      · exact multilineLiteral_of_closing hclosing
      · by_cases hline : c = '\n'
        · subst hline
          rw [List.cons_append, multilineLiteral_newline, ih hcs hruns']
          rfl
        · rw [List.cons_append] at hclosing ⊢
          rw [multilineLiteral_plain hclosing (isPlain_of_not_isControl hc hline), ih hcs hruns']
          rfl

/-! ## strings -/

/-- A text that is written as a literal in one line is not empty and has no
quote that would end it. -/
theorem of_formOf_literal (h : formOf s = .literal) :
    s ≠ [] ∧ ∀ c ∈ s, isPlain c = true ∧ c ≠ '\'' := by
  refine ⟨?_, fun c hc => ?_⟩
  · rintro rfl
    exact absurd h (by decide)
  · simp only [formOf] at h
    split at h
    · cases h
    split at h
    · rename_i hliteral
      simp only [Bool.and_eq_true, Bool.not_eq_true', List.any_eq_false, List.contains_eq_mem,
        decide_eq_false_iff_not] at hliteral
      obtain ⟨⟨hcontrol, hquote⟩, hlines⟩ := hliteral
      exact ⟨isPlain_of_not_isControl (Bool.eq_false_iff.2 (hcontrol c hc))
        (ne_of_mem_of_not_mem hc hlines), ne_of_mem_of_not_mem hc hquote⟩
    repeat' split at h
    all_goals cases h

/-- A text that is written as a literal of several lines has no control
character and at most two quotes in a row. -/
theorem of_formOf_multilineLiteral (h : formOf s = .multilineLiteral) :
    (∀ c ∈ s, isControl c = false) ∧ longestRun '\'' 0 s ≤ 2 := by
  simp only [formOf] at h
  split at h
  · cases h
  split at h
  · cases h
  split at h
  · cases h
  split at h
  · rename_i hliteral
    simpa using hliteral
  split at h <;> cases h

/-- The line break at the beginning is dropped, whether or not it was
written. -/
theorem dropNewline_firstBreak (h : '\n' ∉ s → newline? t = none) :
    dropNewline (firstBreak s ++ t) = t := by
  unfold firstBreak
  split
  · rfl
  · rename_i hlines
    rw [dropNewline, List.nil_append, h (by simpa using hlines)]
    rfl

/-- A text without a line feed is written without a line break at its
front. -/
theorem newline?_writeMultilineBasic (s rest : List Char) (h : '\n' ∉ s) :
    newline? (writeMultilineBasic 0 s ++ '"' :: rest) = none := by
  cases s with
  | nil => rfl
  | cons c cs =>
      by_cases hquote : c = '"'
      · subst hquote
        rfl
      · have hline : c ≠ '\n' := fun hc => h (hc ▸ List.mem_cons_self)
        obtain ⟨d, e, he, -, hd⟩ := exists_escaped hquote hline
        rw [writeMultilineBasic, if_neg hquote, if_neg hline, he]
        exact hd _

theorem newline?_append (hcontrol : ∀ c ∈ s, isControl c = false) (rest : List Char)
    (h : '\n' ∉ s) : newline? (s ++ '\'' :: rest) = none := by
  cases s with
  | nil => rfl
  | cons c cs =>
      have hline : c ≠ '\n' := fun hc => h (hc ▸ List.mem_cons_self)
      exact newline?_of_isPlain (isPlain_of_not_isControl (hcontrol c List.mem_cons_self) hline)

/-- No quote stands at the front of what is written in one line. -/
theorem exists_writeBasic_cons (c : Char) (s : List Char) :
    ∃ d e, writeBasic (c :: s) = d :: e ∧ d ≠ '"' := by
  rw [writeBasic]
  split
  · exact ⟨_, _, rfl, by decide⟩
  split
  · exact ⟨_, _, rfl, by decide⟩
  · rename_i hquote hline
    obtain ⟨d, e, he, hd, -⟩ := exists_escaped hquote hline
    exact ⟨d, _, by rw [he, List.cons_append], hd⟩

/-- A basic string in one line does not look like one of several lines. -/
theorem quoted_basic (s : List Char) (hrest : rest.head? ≠ some '"') :
    quoted ('"' :: (writeBasic s ++ '"' :: rest)) = some (s, rest) := by
  rw [quoted, basic_writeBasic]
  intro t ht
  cases s with
  | nil =>
      cases ht
      exact hrest rfl
  | cons c cs =>
      obtain ⟨d, e, he, hd⟩ := exists_writeBasic_cons c cs
      rw [he] at ht
      exact hd (List.head_eq_of_cons_eq ht)

/-- Nor does a literal string, unless it is empty. -/
theorem quoted_literal (hs : s ≠ []) (h : ∀ c ∈ s, isPlain c = true ∧ c ≠ '\'')
    (rest : List Char) : quoted ('\'' :: (s ++ '\'' :: rest)) = some (s, rest) := by
  rw [quoted, literal_append h]
  intro t ht
  obtain ⟨c, cs, rfl⟩ := List.exists_cons_of_ne_nil hs
  exact (h c List.mem_cons_self).2 (List.head_eq_of_cons_eq ht)

/-- Reading a written string: in front of a text that does not begin with
a quote, a written string is read back as it was. -/
theorem quoted_writeString (s : List Char) (hbasic : rest.head? ≠ some '"')
    (hliteral : rest.head? ≠ some '\'') : quoted (writeString s ++ rest) = some (s, rest) := by
  unfold writeString
  split
  · simpa using quoted_basic s hbasic
  · rename_i hform
    obtain ⟨hs, h⟩ := of_formOf_literal hform
    simpa using quoted_literal hs h rest
  · have hbreak := dropNewline_firstBreak (newline?_writeMultilineBasic s ('"' :: '"' :: rest))
    simp only [List.append_assoc, List.cons_append, List.nil_append, quoted, hbreak]
    exact multilineBasic_append (by decide) s hbasic
  · rename_i hform
    obtain ⟨hcontrol, hruns⟩ := of_formOf_multilineLiteral hform
    have hbreak := dropNewline_firstBreak (newline?_append hcontrol ('\'' :: '\'' :: rest))
    simp only [List.append_assoc, List.cons_append, List.nil_append, quoted, hbreak]
    exact multilineLiteral_append hcontrol hruns hliteral

/-- A text with both quotes stands between three quotes, which its own may
touch. -/
example : writeString ['"', '\'', '"', '"'] =
    ['"', '"', '"', '"', '\'', '"', '"', '"', '"', '"'] := by decide

end CallGraphs.Toml
