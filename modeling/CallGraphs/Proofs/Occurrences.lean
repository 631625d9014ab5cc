import CallGraphs.Proofs.Composition
import Mathlib.Data.List.Induction

/-!
# CallGraphs.Proofs.Occurrences

Which parameters a type mentions once others have been substituted into it.
A type is *over* given parameters if it mentions no others, and it is
*closed* if it mentions none at all.

* `mentions_substitute_iff` — the parameters after a substitution;
* `Over.closed_substitute` — a type is closed by closed types for all its parameters.
-/

namespace CallGraphs

namespace Ty

mutual

/-- A parameter stands in a type after a substitution if it stood there
unbound, or if it stands in the type of a parameter that stood there. -/
theorem mentions_substitute_iff (s : Substitution) (p : TypeParameter) : (t : Ty) →
    ((t.substitute s).mentions p = true ↔
      (s.get? p = none ∧ t.mentions p = true) ∨
        ∃ q u, t.mentions q = true ∧ s.get? q = some u ∧ u.mentions p = true)
  | .primitive _ => by simp [substitute, mentions]
  | .array item => by simpa [substitute, mentions] using mentions_substitute_iff s p item
  | .tuple items => by simpa [substitute, mentions] using anyMentions_substituteList_iff s p items
  | .function i o => by
      have hi := mentions_substitute_iff s p i
      have ho := mentions_substitute_iff s p o
      simp only [substitute, mentions, Bool.or_eq_true, hi, ho]
      grind
  | .operation i o => by
      have hi := mentions_substitute_iff s p i
      have ho := mentions_substitute_iff s p o
      simp only [substitute, mentions, Bool.or_eq_true, hi, ho]
      grind
  | .userDefined _ => by simp [substitute, mentions]
  | .parameter q => by
      cases hq : s.get? q with
      | none => simp [substitute, mentions, hq]; grind
      | some u => simp [substitute, mentions, hq]; grind
  | .missing => by simp [substitute, mentions]

theorem anyMentions_substituteList_iff (s : Substitution) (p : TypeParameter) : (ts : List Ty) →
    (anyMentions p (substituteList s ts) = true ↔
      (s.get? p = none ∧ anyMentions p ts = true) ∨
        ∃ q u, anyMentions q ts = true ∧ s.get? q = some u ∧ u.mentions p = true)
  | [] => by simp [substituteList, anyMentions]
  | t :: ts => by
      have ht := mentions_substitute_iff s p t
      have hts := anyMentions_substituteList_iff s p ts
      simp only [substituteList, anyMentions, Bool.or_eq_true, ht, hts]
      grind

end

/-! ## closed types -/

/-- A type is closed if it mentions no parameter. -/
def Closed (t : Ty) : Prop := ∀ p, t.mentions p = false

/-- A type is over given parameters if it mentions no others. -/
def Over (parameters : List TypeParameter) (t : Ty) : Prop :=
  ∀ p, t.mentions p = true → p ∈ parameters

variable {t : Ty} {s : Substitution} {parameters : List TypeParameter}

theorem Closed.ne_parameter (h : t.Closed) (p : TypeParameter) : t ≠ .parameter p := by
  rintro rfl
  have := h p
  simp [mentions] at this

/-- A parameter mentions itself only. -/
theorem over_parameter (p : TypeParameter) : (parameter p).Over [p] := by
  intro x hx
  obtain rfl : p = x := by simpa [mentions] using hx
  exact List.mem_singleton.2 rfl

/-- Types over given parameters may be substituted into each other. -/
theorem Over.substitute (h : t.Over parameters) (hs : s.Binds (Over parameters)) :
    (t.substitute s).Over parameters := by
  intro p hp
  obtain ⟨-, hp⟩ | ⟨q, u, -, hq, hp⟩ := (mentions_substitute_iff s p t).1 hp
  · exact h p hp
  · exact hs.of_get? hq p hp

/-- A type is closed by closed types for all parameters that it is over. -/
theorem Over.closed_substitute (h : t.Over parameters)
    (hbound : ∀ p ∈ parameters, (s.get? p).isSome) (hs : s.Binds Closed) :
    (t.substitute s).Closed := by
  intro p
  rw [← Bool.not_eq_true, mentions_substitute_iff]
  rintro (⟨hnone, hp⟩ | ⟨q, u, -, hq, hp⟩)
  · have := hbound p (h p hp)
    simp [hnone] at this
  · rw [hs.of_get? hq p] at hp
    cases hp

end Ty

/-! ## substitutions of a list of bindings -/

namespace Substitution

variable {P Q : Ty → Prop} {s : Substitution}

theorem Binds.apply {outer : Substitution} (h : s.Binds P)
    (houter : ∀ t, P t → Q (t.substitute outer)) : (s.apply outer).Binds Q := by
  intro e he
  obtain ⟨d, hd, rfl⟩ := List.mem_map.1 he
  exact houter d.2 (h d hd)

theorem ofList_concat (bindings : List (TypeParameter × Ty)) (b : TypeParameter × Ty) :
    ofList (bindings ++ [b]) = (ofList bindings).insert b.1 b.2 := by
  simp [ofList]

/-- The parameters of a list of bindings are bound. -/
theorem isSome_get?_ofList {bindings : List (TypeParameter × Ty)} {p : TypeParameter} :
    ((ofList bindings).get? p).isSome = true ↔ p ∈ bindings.map (·.1) := by
  induction bindings using List.reverseRecOn with
  | nil => simp [ofList]
  | append_singleton bindings b ih =>
      rw [ofList_concat, get?_insert]
      by_cases hp : p = b.1
      · simp [hp]
      · rw [if_neg hp, ih]
        simp [hp]

/-- The types of a list of bindings may be rewritten one by one. -/
theorem apply_ofList (bindings : List (TypeParameter × Ty)) (outer : Substitution) :
    (ofList bindings).apply outer =
      ofList (bindings.map fun b => (b.1, b.2.substitute outer)) := by
  induction bindings using List.reverseRecOn with
  | nil => exact ext_get? fun p => by simp [ofList]
  | append_singleton bindings b ih =>
      rw [List.map_append, List.map_singleton, ofList_concat, ofList_concat, ← ih]
      refine ext_get? fun p => ?_
      rw [get?_apply, get?_insert, get?_insert, get?_apply]
      by_cases hp : p = b.1 <;> simp [hp]

end Substitution

end CallGraphs
