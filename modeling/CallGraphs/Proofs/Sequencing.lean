import CallGraphs.Proofs.Chains

/-!
# CallGraphs.Proofs.Sequencing

Substituting one map after another.  What two maps do in turn, one map does at
once: it rewrites the types of the first by the second, and keeps of the second
what the first does not bind.

* `get?_followedBy` — what that one map binds;
* `substitute_substitute` — it does what the two do in turn;
* `substituteIfAny_eq` — a type may be kept where nothing is bound;
* `substitute_composes` — the laws of substitution.
-/

namespace CallGraphs

namespace Substitution

/-! ## one map for two -/

/-- Bindings that are put in from the last to the first come before what was
bound. -/
theorem get?_foldr_insert (s : Substitution) (es : List (TypeParameter × Ty))
    (p : TypeParameter) :
    (es.foldr (fun e s => s.insert e.1 e.2) s).get? p = (lookupEntry p es).or (s.get? p) := by
  induction es with
  | nil => rfl
  | cons e es ih =>
      rw [List.foldr_cons, get?_insert, lookupEntry, ih]
      by_cases hp : p = e.1
      · simp [hp]
      · simp [hp]

/-- The map that does at once what `a` and then `b` do: the types of `a`,
rewritten by `b`, and what only `b` binds. -/
def followedBy (a b : Substitution) : Substitution :=
  (a.apply b).entries.foldr (fun e s => s.insert e.1 e.2) b

/-- Each parameter that `a` binds has the type that it has there, rewritten by
`b`; each other parameter has the type that `b` gives it. -/
theorem get?_followedBy (a b : Substitution) (p : TypeParameter) :
    (a.followedBy b).get? p = ((a.get? p).map (·.substitute b)).or (b.get? p) := by
  rw [followedBy, get?_foldr_insert, ← get?_apply]
  rfl

end Substitution

namespace Ty

open Substitution

variable {a b : Substitution}

/-! ## two maps in turn -/

mutual

/-- Substituting twice is substituting once. -/
theorem substitute_substitute (a b : Substitution) :
    (t : Ty) → (t.substitute a).substitute b = t.substitute (a.followedBy b)
  | .primitive _ => rfl
  | .array item => by simp [substitute, substitute_substitute a b item]
  | .tuple items => by simp [substitute, substituteList_substituteList a b items]
  | .function i o => by
      simp [substitute, substitute_substitute a b i, substitute_substitute a b o]
  | .operation i o => by
      simp [substitute, substitute_substitute a b i, substitute_substitute a b o]
  | .userDefined _ => rfl
  | .parameter p => by
      have hview := get?_followedBy a b p
      -- a type that `a` puts in is rewritten as a whole, and `a` is not asked again
      cases ha : a.get? p with
      | none => simp [substitute, hview, ha]
      | some u => simp [substitute, hview, ha]
  | .missing => rfl

/-- So it is for each of several types. -/
theorem substituteList_substituteList (a b : Substitution) :
    (ts : List Ty) →
      substituteList b (substituteList a ts) = substituteList (a.followedBy b) ts
  | [] => rfl
  | t :: ts => by
      simp [substituteList, substitute_substitute a b t, substituteList_substituteList a b ts]

end

/-! ## nothing to replace -/

mutual

/-- Replace the parameters that `s` binds, but keep every part as it is as soon
as `s` is seen to bind nothing. -/
def substituteIfAny (s : Substitution) (t : Ty) : Ty :=
  if s.isEmpty then t
  else
    match t with
    | .parameter p => (s.get? p).getD (.parameter p)
    | .array item => .array (substituteIfAny s item)
    | .tuple items => .tuple (substituteIfAnyList s items)
    | .function input output => .function (substituteIfAny s input) (substituteIfAny s output)
    | .operation input output => .operation (substituteIfAny s input) (substituteIfAny s output)
    | .primitive p => .primitive p
    | .userDefined name => .userDefined name
    | .missing => .missing

/-- Do so in each of several types. -/
def substituteIfAnyList (s : Substitution) : List Ty → List Ty
  | [] => []
  | t :: ts => substituteIfAny s t :: substituteIfAnyList s ts

end

mutual

/-- If something is bound, every part is rewritten as it is otherwise. -/
theorem substituteIfAny_of_not_isEmpty {s : Substitution} (hs : s.isEmpty = false) :
    (t : Ty) → substituteIfAny s t = t.substitute s
  | .primitive _ => by simp [substituteIfAny, substitute]
  | .array item => by
      simp [substituteIfAny, substitute, hs, substituteIfAny_of_not_isEmpty hs item]
  | .tuple items => by
      simp [substituteIfAny, substitute, hs, substituteIfAnyList_of_not_isEmpty hs items]
  | .function i o => by
      simp [substituteIfAny, substitute, hs, substituteIfAny_of_not_isEmpty hs i,
        substituteIfAny_of_not_isEmpty hs o]
  | .operation i o => by
      simp [substituteIfAny, substitute, hs, substituteIfAny_of_not_isEmpty hs i,
        substituteIfAny_of_not_isEmpty hs o]
  | .userDefined _ => by simp [substituteIfAny, substitute]
  | .parameter _ => by simp [substituteIfAny, substitute, hs]
  | .missing => by simp [substituteIfAny, substitute]

theorem substituteIfAnyList_of_not_isEmpty {s : Substitution} (hs : s.isEmpty = false) :
    (ts : List Ty) → substituteIfAnyList s ts = substituteList s ts
  | [] => rfl
  | t :: ts => by
      simp [substituteIfAnyList, substituteList, substituteIfAny_of_not_isEmpty hs t,
        substituteIfAnyList_of_not_isEmpty hs ts]

end

/-- Keeping a type where nothing is bound is the same as rewriting it. -/
theorem substituteIfAny_eq (s : Substitution) (t : Ty) : substituteIfAny s t = t.substitute s := by
  cases hs : s.isEmpty with
  | true =>
      obtain rfl := isEmpty_iff.1 hs
      cases t <;> simp [substituteIfAny]
  | false => exact substituteIfAny_of_not_isEmpty hs t

/-! ## laws -/

/-- The laws of substitution.  Substituting `a` and then `b` is substituting the
map that binds each key of `a` to its type rewritten by `b` and each other key
of `b` as `b` does.  After a substitution, a type mentions a parameter if it did
so and the parameter is not bound, or if the parameter stands in a type that
replaces another one.  A type that mentions no key is kept; and it makes no
difference whether a map is asked at every part whether it binds anything. -/
theorem substitute_composes (t : Ty) (a b : Substitution) :
    (t.substitute a).substitute b = t.substitute (a.followedBy b) ∧
    (∀ p, (a.followedBy b).get? p =
      match a.get? p with
      | some u => some (u.substitute b)
      | none => b.get? p) ∧
    (∀ p, (t.substitute a).mentions p = true ↔
      (p ∉ a.keys ∧ t.mentions p = true) ∨
        ∃ q u, t.mentions q = true ∧ a.get? q = some u ∧ u.mentions p = true) ∧
    ((∀ p ∈ a.keys, t.mentions p = false) → t.substitute a = t) ∧
    substituteIfAny a t = t.substitute a := by
  refine ⟨substitute_substitute a b t, fun p => ?_, fun p => ?_, fun h => ?_,
    substituteIfAny_eq a t⟩
  · rw [get?_followedBy]
    cases a.get? p <;> simp
  · have hkey : p ∉ a.keys ↔ a.get? p = none := by
      rw [mem_keys_iff, Option.not_isSome_iff_eq_none]
    rw [mentions_substitute_iff, hkey]
  · exact substitute_of_not_mentions a t fun p hp => h p (mem_keys_iff.2 hp)

/-- A map of another parameter, which it replaces by a type of its own, keeps a
type. -/
theorem substitute_composes_other_parameter :
    let t : TypeParameter := ⟨⟨"Test", "F"⟩, "T"⟩
    let u : TypeParameter := ⟨⟨"Test", "F"⟩, "U"⟩
    let a : Substitution := ofList [(t, .array (.parameter t))]
    let arrow : Ty := .function (.tuple [.parameter u, .primitive .int]) (.parameter u)
    (∀ p ∈ a.keys, arrow.mentions p = false) ∧ arrow.substitute a = arrow := by
  intro t u a arrow
  have hother : ∀ p ∈ a.keys, arrow.mentions p = false := by decide +kernel
  exact ⟨hother, (substitute_composes arrow a ∅).2.2.2.1 hother⟩

/-- A map that exchanges two parameters replaces both at once, so that doing it
twice leaves each of them in its place. -/
example :
    let t : TypeParameter := ⟨⟨"Test", "F"⟩, "T"⟩
    let u : TypeParameter := ⟨⟨"Test", "F"⟩, "U"⟩
    let swap : Substitution := ofList [(t, .parameter u), (u, .parameter t)]
    swap.followedBy swap = ofList [(t, .parameter t), (u, .parameter u)] := by
  decide +kernel

end Ty

end CallGraphs
