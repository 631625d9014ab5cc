import CallGraphs.Proofs.Trimming
import CallGraphs.QualifiedName

/-!
# CallGraphs.Proofs.Names

Qualified names against their texts.  Reading a text gives a name whose text is
the trimmed one; writing a name gives a text that reads as the same name,
unless the cut at the last dot or the trimming gets in the way.

* `parse?_eq_none_iff` — which texts are no names;
* `parse?_text_iff` — which names can be read back;
* `parse?_text` — reading and writing.
-/

namespace CallGraphs

namespace QualifiedName

variable {s : String} {q : QualifiedName}

theorem toList_text (q : QualifiedName) :
    q.text.toList = q.space.toList ++ '.' :: q.name.toList := by
  simp [text]

/-! ## texts that are no names -/

/-- A text is no name exactly if its trimming has no dot, or if the last dot is
its first or its last character. -/
theorem parse?_eq_none_iff :
    parse? s = none ↔
      '.' ∉ Text.trim s.toList ∨
        (∃ back, Text.trim s.toList = '.' :: back ∧ '.' ∉ back) ∨
        ∃ front, Text.trim s.toList = front ++ ['.'] := by
  have hcut := @Text.splitLast_eq_some_iff '.' (Text.trim s.toList)
  rw [parse?]
  cases h : Text.splitLast '.' (Text.trim s.toList) with
  | none => simp [Text.splitLast_eq_none_iff.1 h]
  | some cut =>
      obtain ⟨front, back⟩ := cut
      obtain ⟨htext, hback⟩ := hcut.1 h
      -- the cut is the only one, so a dot at an end is the one of the cut
      have hfirst : (∃ back', Text.trim s.toList = '.' :: back' ∧ '.' ∉ back') ↔ front = [] := by
        constructor
        · rintro ⟨back', htext', hback'⟩
          have hsame : some (front, back) = some ([], back') :=
            h.symm.trans (hcut.2 ⟨htext', hback'⟩)
          exact congrArg Prod.fst (Option.some.inj hsame)
        · rintro rfl
          exact ⟨back, htext, hback⟩
      have hlast : (∃ front', Text.trim s.toList = front' ++ ['.']) ↔ back = [] := by
        constructor
        · rintro ⟨front', htext'⟩
          have hsame : some (front, back) = some (front', []) :=
            h.symm.trans (hcut.2 ⟨htext', List.not_mem_nil⟩)
          exact congrArg Prod.snd (Option.some.inj hsame)
        · rintro rfl
          exact ⟨front, htext⟩
      have hdot : '.' ∈ Text.trim s.toList := by simp [htext]
      rw [hfirst, hlast, or_iff_right (not_not_intro hdot)]
      by_cases hempty : front = [] ∨ back = []
      · simp [hempty]
      · simp [hempty]

/-! ## names that can be read back -/

/-- The text of a name with two non-empty parts is tight if no blank stands
before the namespace or behind the declared name. -/
theorem tight_text_iff (hspace : q.space ≠ "") (hname : q.name ≠ "") :
    Text.Tight q.text.toList ↔
      (∀ c, q.space.toList.head? = some c → Text.isBlank c = false) ∧
        ∀ c, q.name.toList.getLast? = some c → Text.isBlank c = false := by
  have hhead : q.text.toList.head? = q.space.toList.head? := by
    have hne : q.space.toList ≠ [] := by simpa using hspace
    rw [toList_text, List.head?_append, List.head?_eq_some_head hne, Option.some_or]
  have hlast : q.text.toList.getLast? = q.name.toList.getLast? := by
    have hne : q.name.toList ≠ [] := by simpa using hname
    rw [toList_text, ← List.singleton_append, ← List.append_assoc, List.getLast?_append,
      List.getLast?_eq_some_getLast hne, Option.some_or]
  rw [← hhead, ← hlast]
  exact ⟨fun h => ⟨h.head, h.last⟩, fun h => ⟨h.1, h.2⟩⟩

/-- A name can be read back from its text exactly if its parts are not empty,
the declared name has no dot, and the text is tight. -/
theorem parse?_text_iff :
    parse? q.text = some q ↔
      q.space ≠ "" ∧ q.name ≠ "" ∧ '.' ∉ q.name.toList ∧
        (∀ c, q.space.toList.head? = some c → Text.isBlank c = false) ∧
        ∀ c, q.name.toList.getLast? = some c → Text.isBlank c = false := by
  rw [parse?_eq_some_iff, ← toList_text, Text.trim_eq_self_iff]
  constructor
  · rintro ⟨htight, hdot, hspace, hname⟩
    exact ⟨hspace, hname, hdot, (tight_text_iff hspace hname).1 htight⟩
  · rintro ⟨hspace, hname, hdot, hends⟩
    exact ⟨(tight_text_iff hspace hname).2 hends, hdot, hspace, hname⟩

/-- A name that was read can be read back from its own text. -/
theorem parse?_text_of_parse? (h : parse? s = some q) : parse? q.text = some q := by
  obtain ⟨htext, hparts⟩ := parse?_eq_some_iff.1 h
  rw [← toList_text] at htext
  have htight : Text.Tight q.text.toList := htext ▸ Text.tight_trim s.toList
  refine parse?_eq_some_iff.2 ⟨?_, hparts⟩
  rw [Text.trim_eq_self_iff.2 htight, toList_text]

/-! ## reading and writing -/

/-- Reading a name and writing it are inverse to each other.  Let `t` be a text
without the blanks at its ends.  A name that is read has the text `t`, with two
non-empty parts and no dot in the declared name, and is read back from it.  No
name is read exactly if `t` has no dot, or has its last one at an end.  And a
name is read back from its own text exactly if both parts are non-empty, the
declared name has no dot, the namespace begins with no blank and the declared
name ends with none. -/
theorem parse?_text (s : String) (q : QualifiedName) :
    (∃ t, Text.Trims s.toList t ∧
      (parse? s = some q →
        q.text.toList = t ∧ q.space ≠ "" ∧ q.name ≠ "" ∧ '.' ∉ q.name.toList ∧
          parse? q.text = some q) ∧
      (parse? s = none ↔
        '.' ∉ t ∨ (∃ back, t = '.' :: back ∧ '.' ∉ back) ∨ ∃ front, t = front ++ ['.'])) ∧
    (parse? q.text = some q ↔
      q.space ≠ "" ∧ q.name ≠ "" ∧ '.' ∉ q.name.toList ∧
        (∀ c, q.space.toList.head? = some c → Text.isBlank c = false) ∧
        ∀ c, q.name.toList.getLast? = some c → Text.isBlank c = false) := by
  refine ⟨⟨Text.trim s.toList, Text.trim_eq_iff.1 rfl, fun h => ?_, parse?_eq_none_iff⟩,
    parse?_text_iff⟩
  obtain ⟨htext, hdot, hspace, hname⟩ := parse?_eq_some_iff.1 h
  exact ⟨by rw [htext, toList_text], hspace, hname, hdot, parse?_text_of_parse? h⟩

/-- Blanks at both ends of a text are dropped, blanks next to an inner dot are
not. -/
example :
    parse? " A.B. main\t" = some ⟨"A.B", " main"⟩ ∧ parse? "A.B. main" = some ⟨"A.B", " main"⟩ ∧
      parse? " .main" = none ∧ parse? "A. " = none := by
  decide

end QualifiedName

end CallGraphs
