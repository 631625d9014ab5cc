import CallGraphs.Text.Blank
import Mathlib.Data.List.TakeWhile

/-!
# CallGraphs.Proofs.Trimming

What trimming leaves of a text.  A text is tight if no blank stands at either
of its ends; every text is a tight one between blanks, and trimming finds it.

* `trim_eq_nil_iff` — nothing is left of blanks;
* `tight_trim` — what is left is tight;
* `trim_eq_iff` — and it is the one tight text between the blanks.
-/

namespace CallGraphs.Text

variable {s t before after : List Char}

/-! ## blank and tight texts -/

/-- A text of blanks. -/
def Blank (s : List Char) : Prop := ∀ c ∈ s, isBlank c = true

/-- A text that neither begins nor ends with a blank. -/
structure Tight (s : List Char) : Prop where
  head : ∀ c, s.head? = some c → isBlank c = false
  last : ∀ c, s.getLast? = some c → isBlank c = false

/-- The text `t` is what is left of `s` without the blanks at its ends. -/
def Trims (s t : List Char) : Prop :=
  Tight t ∧ ∃ before after, Blank before ∧ Blank after ∧ s = before ++ (t ++ after)

/-- Nothing is left of a text by trimming exactly if it is blank. -/
theorem trim_eq_nil_iff : trim s = [] ↔ Blank s := by
  rw [trim, trimBack, List.reverse_eq_nil_iff, List.dropWhile_eq_nil_iff]
  simp only [List.mem_reverse, trimFront]
  constructor
  · intro h c hc
    rw [← List.takeWhile_append_dropWhile (p := isBlank) (l := s), List.mem_append] at hc
    exact hc.elim List.mem_takeWhile_imp (h c)
  · exact fun h c hc => h c ((List.dropWhile_suffix _).subset hc)

/-! ## one end -/

/-- What is dropped at the front is blank. -/
theorem exists_trimFront (s : List Char) : ∃ before, Blank before ∧ s = before ++ trimFront s :=
  ⟨s.takeWhile isBlank, fun _ hc => List.mem_takeWhile_imp hc,
    List.takeWhile_append_dropWhile.symm⟩

/-- What is dropped at the back is blank. -/
theorem exists_trimBack (s : List Char) : ∃ after, Blank after ∧ s = trimBack s ++ after := by
  obtain ⟨before, hblank, hs⟩ := exists_trimFront s.reverse
  refine ⟨before.reverse, fun c hc => hblank c (List.mem_reverse.1 hc), ?_⟩
  rw [trimBack, ← List.reverse_append]
  exact (List.reverse_eq_iff.1 hs)

/-- Blanks at the back make no difference to what is left. -/
theorem trimBack_append (hafter : Blank after) (s : List Char) :
    trimBack (s ++ after) = trimBack s := by
  rw [trimBack, trimBack, List.reverse_append, List.dropWhile_append_of_pos]
  exact fun c hc => hafter c (List.mem_reverse.1 hc)

/-- Nor do blanks at the front. -/
theorem trimFront_append (hbefore : Blank before) (s : List Char) :
    trimFront (before ++ s) = trimFront s :=
  List.dropWhile_append_of_pos hbefore

/-! ## both ends -/

/-- What is left by trimming is tight. -/
theorem tight_trim (s : List Char) : Tight (trim s) := by
  have hfront : ∀ c, (trimFront s).head? = some c → isBlank c = false := by
    intro c hc
    have hnot := List.head?_dropWhile_not isBlank s
    rw [trimFront] at hc
    rwa [hc] at hnot
  constructor
  case head =>
    intro c hc
    obtain ⟨after, -, hafter⟩ := exists_trimBack (trimFront s)
    refine hfront c ?_
    rw [hafter, List.head?_append]
    rw [trim] at hc
    rw [hc]
    rfl
  case last =>
    intro c hc
    have hnot := List.head?_dropWhile_not isBlank (trimFront s).reverse
    rw [trim, trimBack, List.getLast?_reverse] at hc
    rwa [hc] at hnot

/-- Trimming leaves the one tight text that stands between blanks. -/
theorem trim_eq_iff : trim s = t ↔ Trims s t := by
  constructor
  · rintro rfl
    obtain ⟨before, hbefore, hs⟩ := exists_trimFront s
    obtain ⟨after, hafter, hfront⟩ := exists_trimBack (trimFront s)
    exact ⟨tight_trim s, before, after, hbefore, hafter, by rw [trim, ← hfront, ← hs]⟩
  · rintro ⟨htight, before, after, hbefore, hafter, rfl⟩
    cases t with
    | nil =>
        refine trim_eq_nil_iff.2 fun c hc => ?_
        rw [List.nil_append, List.mem_append] at hc
        exact hc.elim (hbefore c) (hafter c)
    | cons c r =>
        have hself := trim_of_not_blank_ends htight.head htight.last
        have hc : isBlank c = false := htight.head c rfl
        rw [trim, trimFront_cons_of_not_blank hc] at hself
        rw [trim, trimFront_append hbefore, List.cons_append, trimFront_cons_of_not_blank hc,
          ← List.cons_append, trimBack_append hafter, hself]

/-- Nothing is dropped exactly from a tight text. -/
theorem trim_eq_self_iff : trim s = s ↔ Tight s :=
  ⟨fun h => h ▸ tight_trim s, fun h => trim_of_not_blank_ends h.head h.last⟩

end CallGraphs.Text
