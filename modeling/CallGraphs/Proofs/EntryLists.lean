import CallGraphs.Proofs.Priority

/-!
# CallGraphs.Proofs.EntryLists

The list of entry points in the environment.  Its pieces stand between commas;
a piece is an entry between blanks, or nothing but blanks.  Reading the list
gives the entries, in order, and nothing else.

* `pieces_joined` — joined texts are cut where they were joined;
* `splitEntryPoints_eq_iff` — what is read from a list is what it spells;
* `entryPoints_read` — what a list of entry points does to a configuration.
-/

namespace CallGraphs

/-! ## pieces -/

namespace Text

variable {sep : Char} {s p : List Char} {ps : List (List Char)}

/-- The pieces of a text are its parts between the separators. -/
theorem pieces_eq_splitOn (sep : Char) (s : List Char) : pieces sep s = s.splitOn sep := by
  induction s with
  | nil => rfl
  | cons c cs ih =>
      rw [List.splitOn_eq_splitOnP] at ih ⊢
      rw [pieces, ih, List.splitOnP_cons_eq_if_modifyHead]
      by_cases hc : c = sep
      · simp [hc]
      · cases h : cs.splitOnP (· == sep) with
        | nil => exact absurd h (List.splitOnP_ne_nil _ _)
        | cons p ps => simp [hc]

theorem joined_eq_intercalate (sep : Char) (ps : List (List Char)) :
    joined sep ps = [sep].intercalate ps := by
  induction ps with
  | nil => rfl
  | cons p ps ih =>
      cases ps with
      | nil => simp [joined]
      | cons q qs => rw [joined, ih, List.intercalate_cons_cons, List.append_assoc]; rfl

/-- Joining texts without the separator and cutting what comes out gives them
back. -/
theorem pieces_joined (h : ∀ p ∈ ps, sep ∉ p) (hne : ps ≠ []) :
    pieces sep (joined sep ps) = ps := by
  rw [pieces_eq_splitOn, joined_eq_intercalate, List.splitOn_intercalate sep h hne]

/-- The characters of a piece are some of the whole text. -/
theorem mem_of_mem_pieces {c : Char} (hp : p ∈ pieces sep s) (hc : c ∈ p) : c ∈ s := by
  induction s generalizing p with
  | nil => simp_all [pieces]
  | cons d ds ih => grind [pieces]

end Text

namespace Config

/-! ## entries -/

/-- A text that can be an entry of a list: it is not empty, it has no comma,
and it has no blank at its ends. -/
structure IsEntry (entry : String) : Prop where
  ne_empty : entry ≠ ""
  no_comma : ',' ∉ entry.toList
  tight : Text.Tight entry.toList

/-- Pieces in which entries are written, in order: each entry between blanks,
and any number of blank pieces anywhere. -/
inductive PiecesOf : List String → List (List Char) → Prop
  | done : PiecesOf [] []
  | blank {gap : List Char} {entries : List String} {pieces : List (List Char)}
      (hgap : Text.Blank gap) (h : PiecesOf entries pieces) : PiecesOf entries (gap :: pieces)
  | entry {before after : List Char} {entry : String} {entries : List String}
      {pieces : List (List Char)} (hbefore : Text.Blank before) (hafter : Text.Blank after)
      (h : PiecesOf entries pieces) :
      PiecesOf (entry :: entries) ((before ++ (entry.toList ++ after)) :: pieces)

/-- A list spells entries if they are written in its pieces. -/
def Spells (value : String) (entries : List String) : Prop :=
  ∃ pieces, PiecesOf entries pieces ∧ value.toList = Text.joined ',' pieces

/-- The entries in given pieces. -/
def entriesOf (pieces : List (List Char)) : List String :=
  ((pieces.map Text.trim).filter (· ≠ [])).map String.ofList

theorem splitEntryPoints_eq (value : String) :
    splitEntryPoints value = entriesOf (Text.pieces ',' value.toList) := rfl

variable {value : String} {entries : List String} {piece gap : List Char}
  {pieces : List (List Char)}

/-- A blank piece has no entry. -/
theorem entriesOf_cons_of_blank (h : Text.trim piece = []) :
    entriesOf (piece :: pieces) = entriesOf pieces := by
  simp [entriesOf, h]

/-- Any other piece has one, its trimming. -/
theorem entriesOf_cons_of_not_blank (h : Text.trim piece ≠ []) :
    entriesOf (piece :: pieces) = String.ofList (Text.trim piece) :: entriesOf pieces := by
  simp [entriesOf, h]

/-- Pieces are made of the entries in them. -/
theorem piecesOf_entriesOf (pieces : List (List Char)) : PiecesOf (entriesOf pieces) pieces := by
  induction pieces with
  | nil => exact .done
  | cons piece pieces ih =>
      by_cases hblank : Text.trim piece = []
      · rw [entriesOf_cons_of_blank hblank]
        exact .blank (Text.trim_eq_nil_iff.1 hblank) ih
      · obtain ⟨-, before, after, hbefore, hafter, hpiece⟩ :=
          Text.trim_eq_iff.1 (rfl : Text.trim piece = _)
        have hentry : PiecesOf (String.ofList (Text.trim piece) :: entriesOf pieces)
            ((before ++ ((String.ofList (Text.trim piece)).toList ++ after)) :: pieces) :=
          .entry hbefore hafter ih
        rw [String.toList_ofList, ← hpiece] at hentry
        rwa [entriesOf_cons_of_not_blank hblank]

/-- What is found in pieces without commas are entries. -/
theorem isEntry_of_mem_entriesOf (h : ∀ p ∈ pieces, ',' ∉ p) {entry : String}
    (hentry : entry ∈ entriesOf pieces) : IsEntry entry := by
  simp only [entriesOf, List.mem_map, List.mem_filter, decide_eq_true_eq] at hentry
  obtain ⟨t, ⟨⟨piece, hpiece, rfl⟩, hne⟩, rfl⟩ := hentry
  obtain ⟨htight, before, after, -, -, hwhole⟩ := Text.trim_eq_iff.1 (rfl : Text.trim piece = _)
  constructor
  case ne_empty => simpa using hne
  case no_comma =>
    rw [String.toList_ofList]
    intro hcomma
    refine h piece hpiece ?_
    rw [hwhole]
    exact List.mem_append_right _ (List.mem_append_left _ hcomma)
  case tight => rwa [String.toList_ofList]

namespace PiecesOf

theorem not_mem_of_blank (h : Text.Blank gap) : ',' ∉ gap := by
  intro hcomma
  have hblank : Text.isBlank ',' = true := h ',' hcomma
  exact absurd hblank (by decide)

/-- Pieces in which entries are written have no commas. -/
theorem no_comma (h : PiecesOf entries pieces) (hentries : ∀ e ∈ entries, IsEntry e) :
    ∀ p ∈ pieces, ',' ∉ p := by
  induction h with
  | done => exact fun p hp => absurd hp List.not_mem_nil
  | blank hgap h ih => exact List.forall_mem_cons.2 ⟨not_mem_of_blank hgap, ih hentries⟩
  | entry hbefore hafter h ih =>
      obtain ⟨hentry, hrest⟩ := List.forall_mem_cons.1 hentries
      refine List.forall_mem_cons.2 ⟨?_, ih hrest⟩
      simp [not_mem_of_blank hbefore, not_mem_of_blank hafter, hentry.no_comma]

/-- The entries that are found in them are those that were written. -/
theorem entriesOf_eq (h : PiecesOf entries pieces) (hentries : ∀ e ∈ entries, IsEntry e) :
    entriesOf pieces = entries := by
  induction h with
  | done => rfl
  | blank hgap h ih => rw [entriesOf_cons_of_blank (Text.trim_eq_nil_iff.2 hgap), ih hentries]
  | @entry before after entry entries pieces hbefore hafter h ih =>
      obtain ⟨hentry, hrest⟩ := List.forall_mem_cons.1 hentries
      have htrim : Text.trim (before ++ (entry.toList ++ after)) = entry.toList :=
        Text.trim_eq_iff.2 ⟨hentry.tight, before, after, hbefore, hafter, rfl⟩
      have hne : Text.trim (before ++ (entry.toList ++ after)) ≠ [] := by
        rw [htrim]
        simpa using hentry.ne_empty
      rw [entriesOf_cons_of_not_blank hne, htrim, String.ofList_toList, ih hrest]

/-- Entries may be written with nothing around them. -/
theorem bare (entries : List String) : PiecesOf entries (entries.map String.toList) := by
  induction entries with
  | nil => exact .done
  | cons e es ih =>
      have hentry : PiecesOf (e :: es) (([] ++ (e.toList ++ [])) :: es.map String.toList) :=
        .entry nofun nofun ih
      rwa [List.nil_append, List.append_nil] at hentry

end PiecesOf

/-! ## lists -/

/-- Entries are read from a list exactly if the list spells them. -/
theorem splitEntryPoints_eq_iff :
    splitEntryPoints value = entries ↔ (∀ e ∈ entries, IsEntry e) ∧ Spells value entries := by
  rw [splitEntryPoints_eq]
  constructor
  · rintro rfl
    have hcommas : ∀ p ∈ Text.pieces ',' value.toList, ',' ∉ p :=
      fun p hp => Text.not_mem_of_mem_pieces hp
    exact ⟨fun e he => isEntry_of_mem_entriesOf hcommas he, _, piecesOf_entriesOf _,
      (Text.joined_pieces ',' value.toList).symm⟩
  · rintro ⟨hentries, pieces, hpieces, hvalue⟩
    by_cases hne : pieces = []
    · subst hne
      cases hpieces
      rw [hvalue]
      rfl
    · rw [hvalue, Text.pieces_joined (hpieces.no_comma hentries) hne, hpieces.entriesOf_eq hentries]

/-- A list spells the entries that it joins with commas. -/
theorem spells_intercalate (entries : List String) : Spells (",".intercalate entries) entries := by
  refine ⟨_, .bare entries, ?_⟩
  rw [String.toList_intercalate, Text.joined_eq_intercalate]
  rfl

/-- A list of commas and blanks has no entries. -/
theorem splitEntryPoints_of_blank (h : ∀ c ∈ value.toList, c = ',' ∨ Text.isBlank c = true) :
    splitEntryPoints value = [] := by
  rw [splitEntryPoints_eq_nil_iff]
  rintro ⟨piece, hpiece, c, hc, hblank⟩
  obtain rfl | hblank' := h c (Text.mem_of_mem_pieces hpiece hc)
  · exact Text.not_mem_of_mem_pieces hpiece hc
  · rw [hblank'] at hblank
    cases hblank

/-! ## the environment -/

/-- A list of entry points takes effect before the other variables. -/
theorem applyEnvironment_entryPoints (c : Config) (env : Environment) (value : String) :
    c.applyEnvironment { env with entryPoints := some value } =
      (c.withEntryPoints value).applyEnvironment { env with entryPoints := none } := rfl

/-- The other variables leave the entry points alone. -/
theorem entryPoints_applyEnvironment {c c' : Config} {env : Environment}
    (h : c.applyEnvironment { env with entryPoints := none } = .ok c') :
    c'.entryPoints = c.entryPoints := by
  have hflag (d : Config) : (env.traceEdges.elim d d.withTraceEdges).entryPoints =
      d.entryPoints := by
    cases env.traceEdges with
    | none => rfl
    | some value =>
        simp only [Option.elim_some, withTraceEdges]
        split
        · rfl
        · split <;> rfl
  obtain ⟨d, hlimit, hd⟩ := bind_eq_ok_iff.1 h
  obtain rfl := Except.ok.inj hd
  rw [hflag]
  cases hmax : env.maxNodes with
  | none =>
      rw [hmax] at hlimit
      obtain rfl := Except.ok.inj hlimit
      rfl
  | some value =>
      simp only [hmax, Option.elim_some, withMaxNodes] at hlimit
      split at hlimit
      · obtain rfl := Except.ok.inj hlimit
        rfl
      · cases hlimit

/-- The list of entry points in the environment is read as it was written.  A
text in which one or more entries are written between commas, with blanks around
them and blank pieces anywhere, sets the entry points to these entries and has
no other effect, whatever the other variables do.  They leave the entry points
alone, and without them there is no error.  Every text spells the entries that
are read from it, which are not empty, have no comma and no blank at an end, and
joining them with commas gives a text from which they are read again.  A text of
commas and blanks has no effect. -/
theorem entryPoints_read (c : Config) (env : Environment) :
    (∀ entries value, entries ≠ [] → (∀ e ∈ entries, IsEntry e) → Spells value entries →
      c.applyEnvironment { env with entryPoints := some value } =
        { c with entryPoints := entries }.applyEnvironment { env with entryPoints := none }) ∧
    (∀ value, (∀ e ∈ splitEntryPoints value, IsEntry e) ∧ Spells value (splitEntryPoints value) ∧
      splitEntryPoints (",".intercalate (splitEntryPoints value)) = splitEntryPoints value) ∧
    (∀ value, (∀ c ∈ value.toList, c = ',' ∨ Text.isBlank c = true) →
      c.applyEnvironment { env with entryPoints := some value } =
        c.applyEnvironment { env with entryPoints := none }) ∧
    ∀ d : Config, d.applyEnvironment ⟨none, none, none⟩ = .ok d ∧
      ∀ d', d.applyEnvironment { env with entryPoints := none } = .ok d' →
        d'.entryPoints = d.entryPoints := by
  refine ⟨fun entries value hne hentries hspells => ?_, fun value => ?_, fun value hblank => ?_,
    fun d => ⟨rfl, fun d' => entryPoints_applyEnvironment⟩⟩
  · have hread := splitEntryPoints_eq_iff.2 ⟨hentries, hspells⟩
    rw [applyEnvironment_entryPoints, withEntryPoints, if_neg (by rwa [hread]), hread]
  · obtain ⟨hentries, hspells⟩ := splitEntryPoints_eq_iff.1 (rfl : splitEntryPoints value = _)
    exact ⟨hentries, hspells, splitEntryPoints_eq_iff.2 ⟨hentries, spells_intercalate _⟩⟩
  · rw [applyEnvironment_entryPoints, withEntryPoints, if_pos (splitEntryPoints_of_blank hblank)]

/-- Blanks inside an entry are kept, also those that are not ASCII. -/
example : splitEntryPoints " ,\u00A0Test.Main ,\t, A. B,," = ["Test.Main", "A. B"] := by decide

end Config

end CallGraphs
