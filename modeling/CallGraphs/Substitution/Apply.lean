import CallGraphs.Substitution.Basic

/-!
# CallGraphs.Substitution.Apply

Applying a substitution to a type: every bound parameter is replaced at
once, and what replaces it is not looked at again.

* `substitute_of_not_mentions` — a type that mentions no bound parameter stays as it is;
* `substitute_empty` — nor does the empty substitution change anything.
-/

namespace CallGraphs

namespace Ty

mutual

/-- Replace the parameters that `s` binds; the others stay. -/
def substitute (s : Substitution) : Ty → Ty
  | .primitive p => .primitive p
  | .array item => .array (item.substitute s)
  | .tuple items => .tuple (substituteList s items)
  | .function input output => .function (input.substitute s) (output.substitute s)
  | .operation input output => .operation (input.substitute s) (output.substitute s)
  | .userDefined name => .userDefined name
  | .parameter p => (s.get? p).getD (.parameter p)
  | .missing => .missing

/-- Replace the parameters that `s` binds in each of several types. -/
def substituteList (s : Substitution) : List Ty → List Ty
  | [] => []
  | t :: ts => t.substitute s :: substituteList s ts

end

mutual

/-- A type that mentions no bound parameter stays as it is. -/
theorem substitute_of_not_mentions (s : Substitution) :
    (t : Ty) → (∀ p, (s.get? p).isSome → t.mentions p = false) → t.substitute s = t
  | .primitive _, _ => rfl
  | .array item, h => by
      rw [substitute, substitute_of_not_mentions s item fun p hp => by
        simpa [mentions] using h p hp]
  | .tuple items, h => by
      rw [substitute, substituteList_of_not_mentions s items fun p hp => by
        simpa [mentions] using h p hp]
  | .function i o, h => by
      have h' : ∀ p, (s.get? p).isSome → i.mentions p = false ∧ o.mentions p = false :=
        fun p hp => by simpa [mentions] using h p hp
      rw [substitute, substitute_of_not_mentions s i fun p hp => (h' p hp).1,
        substitute_of_not_mentions s o fun p hp => (h' p hp).2]
  | .operation i o, h => by
      have h' : ∀ p, (s.get? p).isSome → i.mentions p = false ∧ o.mentions p = false :=
        fun p hp => by simpa [mentions] using h p hp
      rw [substitute, substitute_of_not_mentions s i fun p hp => (h' p hp).1,
        substitute_of_not_mentions s o fun p hp => (h' p hp).2]
  | .userDefined _, _ => rfl
  | .parameter q, h => by
      cases hq : s.get? q with
      | none => simp [substitute, hq]
      | some t => have := h q (by simp [hq]); simp [mentions] at this
  | .missing, _ => rfl

theorem substituteList_of_not_mentions (s : Substitution) :
    (ts : List Ty) → (∀ p, (s.get? p).isSome → anyMentions p ts = false) →
      substituteList s ts = ts
  | [], _ => rfl
  | t :: ts, h => by
      have h' : ∀ p, (s.get? p).isSome → t.mentions p = false ∧ anyMentions p ts = false :=
        fun p hp => by simpa [anyMentions] using h p hp
      rw [substituteList, substitute_of_not_mentions s t fun p hp => (h' p hp).1,
        substituteList_of_not_mentions s ts fun p hp => (h' p hp).2]

end

/-- The empty substitution changes nothing. -/
@[simp] theorem substitute_empty (t : Ty) : t.substitute ∅ = t :=
  substitute_of_not_mentions ∅ t (by simp)

end Ty

namespace Substitution

/-- Apply `outer` to every type that `s` binds. -/
def apply (s outer : Substitution) : Substitution := s.mapTypes (·.substitute outer)

@[simp] theorem get?_apply (s outer : Substitution) (p : TypeParameter) :
    (s.apply outer).get? p = (s.get? p).map (·.substitute outer) :=
  get?_mapTypes _ s p

@[simp] theorem apply_empty (s : Substitution) : s.apply ∅ = s :=
  ext_get? fun p => by simp

end Substitution

end CallGraphs
