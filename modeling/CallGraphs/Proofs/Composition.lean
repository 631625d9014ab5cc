import CallGraphs.Substitution.Composition

/-!
# CallGraphs.Proofs.Composition

What a composition of substitutions binds.  A property of types that is kept
when such types are substituted into each other is kept by composition.

* `binds_compose` — what a composition binds;
* `compose_single` — the composition of two bindings.
-/

namespace CallGraphs

/-! ## substitutions -/

namespace Substitution

/-- A substitution binds only types with the property `P`. -/
def Binds (P : Ty → Prop) (s : Substitution) : Prop := ∀ e ∈ s.entries, P e.2

variable {P : Ty → Prop} {s : Substitution} {p : TypeParameter} {t : Ty}

theorem binds_empty (P : Ty → Prop) : Binds P ∅ := fun _ h => absurd h List.not_mem_nil

theorem mem_of_lookupEntry {es : List (TypeParameter × Ty)} (h : lookupEntry p es = some t) :
    (p, t) ∈ es := by
  induction es with
  | nil => cases h
  | cons e es ih =>
      rw [lookupEntry] at h
      by_cases hp : p = e.1
      · rw [if_pos hp] at h
        cases h
        simp [hp]
      · rw [if_neg hp] at h
        exact List.mem_cons_of_mem e (ih h)

/-- The type of a parameter is bound. -/
theorem Binds.of_get? (hs : s.Binds P) (h : s.get? p = some t) : P t :=
  hs (p, t) (mem_of_lookupEntry h)

theorem Binds.insert (hs : s.Binds P) (p : TypeParameter) (ht : P t) : (s.insert p t).Binds P := by
  intro e he
  obtain rfl | he := mem_insertEntry he
  · exact ht
  · exact hs e he

theorem binds_ofList {bindings : List (TypeParameter × Ty)} (h : ∀ e ∈ bindings, P e.2) :
    (ofList bindings).Binds P := by
  have hfold (s : Substitution) (hs : s.Binds P) :
      (bindings.foldl (fun s binding => s.insert binding.1 binding.2) s).Binds P := by
    induction bindings generalizing s with
    | nil => exact hs
    | cons e es ih =>
        obtain ⟨he, hes⟩ := List.forall_mem_cons.1 h
        exact ih hes _ (hs.insert e.1 he)
  exact hfold ∅ (binds_empty P)

/-- The substitution of one parameter. -/
def single (p : TypeParameter) (t : Ty) : Substitution := ofList [(p, t)]

theorem get?_single (p q : TypeParameter) (t : Ty) :
    (single p t).get? q = if q = p then some t else none := by
  simp [single, ofList, get?_insert]

theorem binds_single (p : TypeParameter) (ht : P t) : (single p t).Binds P :=
  binds_ofList (by simpa using ht)

/-- The type that one parameter is bound to is rewritten. -/
theorem apply_single (p : TypeParameter) (t : Ty) (outer : Substitution) :
    (single p t).apply outer = single p (t.substitute outer) := by
  refine ext_get? fun x => ?_
  rw [get?_apply, get?_single, get?_single]
  by_cases hx : x = p <;> simp [hx]

end Substitution

/-! ## composition -/

namespace Combiner

open Substitution

variable {P : Ty → Prop} {collected s : Substitution}

/-- What each step of a fold preserves holds of its result. -/
theorem foldlM_induction {α β : Type} {f : β → α → Except BuildError β} {I : β → Prop}
    {xs : List α} (hstep : ∀ x ∈ xs, ∀ a a', I a → f a x = .ok a' → I a') {a b : β} (ha : I a)
    (h : xs.foldlM f a = .ok b) : I b := by
  induction xs generalizing a with
  | nil =>
      cases h
      exact ha
  | cons x xs ih =>
      rw [List.foldlM_cons] at h
      cases hx : f a x with
      | error e =>
          rw [hx] at h
          cases h
      | ok a' =>
          rw [hx] at h
          obtain ⟨hfirst, hrest⟩ := List.forall_mem_cons.1 hstep
          exact ih hrest (hfirst a a' ha hx) h

theorem binds_merge (hcollected : collected.Binds P) {binding : TypeParameter × Ty}
    (hbinding : P binding.2) (h : merge collected binding = .ok s) : s.Binds P := by
  obtain ⟨p, t⟩ := binding
  rw [merge] at h
  cases hp : collected.get? p with
  | none =>
      simp only [hp] at h
      cases h
      exact hcollected.insert p hbinding
  | some existing =>
      simp only [hp] at h
      by_cases hkeep : existing = t ∨ t = .parameter p
      · rw [if_pos hkeep] at h
        cases h
        exact hcollected
      · rw [if_neg hkeep] at h
        by_cases hgive : existing = .parameter p
        · rw [if_pos hgive] at h
          cases h
          exact hcollected.insert p hbinding
        · rw [if_neg hgive] at h
          cases h

/-- A property that is kept by substituting is kept by the next map of a
chain. -/
theorem binds_absorb (hP : ∀ t s, P t → Binds P s → P (t.substitute s)) {map : Substitution}
    (hcollected : collected.Binds P) (hmap : map.Binds P)
    (h : absorb collected map = .ok s) : s.Binds P := by
  have happly : (collected.apply map).Binds P := by
    intro e he
    obtain ⟨d, hd, rfl⟩ := List.mem_map.1 he
    exact hP d.2 map (hcollected d hd) hmap
  exact foldlM_induction (fun e he _ _ ha => binds_merge ha (hmap e he)) happly h

/-- A property that is kept by substituting is kept by composition. -/
theorem binds_compose (hP : ∀ t s, P t → Binds P s → P (t.substitute s))
    {chain : List Substitution} (hchain : ∀ map ∈ chain, map.Binds P)
    (h : compose chain = .ok s) : s.Binds P := by
  rw [compose] at h
  cases hfold : chain.foldlM absorb ∅ with
  | error e =>
      rw [hfold] at h
      cases h
  | ok collected =>
      -- the check at the end does not change what was collected
      have hcollected : collected.Binds P :=
        foldlM_induction (fun map hmap _ _ ha => binds_absorb hP ha (hchain map hmap))
          (binds_empty P) hfold
      rw [hfold] at h
      change checkCircular collected = .ok s at h
      rw [checkCircular] at h
      cases hcircular : collected.entries.find? circular with
      | none =>
          simp only [hcircular] at h
          cases h
          exact hcollected
      | some e =>
          simp only [hcircular] at h
          cases h

/-! ## short chains -/

/-- A parameter that is not bound yet is bound by the next map. -/
theorem absorb_single {p : TypeParameter} {t : Ty} (h : collected.get? p = none) :
    absorb collected (single p t) = .ok ((collected.apply (single p t)).insert p t) := by
  have hnone : (collected.apply (single p t)).get? p = none := by simp [h]
  show [(p, t)].foldlM merge (collected.apply (single p t)) = _
  simp [merge, hnone]

/-- Types without parameters are not circular. -/
theorem checkCircular_of_binds (h : s.Binds fun t => ∀ x, t.mentions x = false) :
    checkCircular s = .ok s := by
  have hnone : s.entries.find? circular = none := by
    rw [List.find?_eq_none]
    intro e he
    simp [circular, h e he]
  rw [checkCircular, hnone]

/-- Two maps whose bindings fit together compose to all of them. -/
theorem compose_pair {inner outer : Substitution} (hinner : absorb ∅ inner = .ok collected)
    (houter : absorb collected outer = .ok s)
    (hs : s.Binds fun t => ∀ x, t.mentions x = false) : compose [inner, outer] = .ok s := by
  rw [compose, List.foldlM_cons, hinner]
  show (do
    let collected ← [outer].foldlM absorb collected
    checkCircular collected) = _
  rw [List.foldlM_cons, houter]
  exact checkCircular_of_binds hs

/-- The map of a call and that of a caller without parameters compose to the
former. -/
theorem compose_single_empty (p : TypeParameter) {t : Ty} (ht : ∀ x, t.mentions x = false) :
    compose [single p t, ∅] = .ok (single p t) :=
  compose_pair (absorb_single rfl) (absorb_empty _) (binds_single p ht)

/-- The map of a call and that of its caller compose to both, the type of the
call being taken at the type of the caller. -/
theorem compose_single {p q : TypeParameter} {t u : Ty} (hpq : q ≠ p)
    (ht : ∀ x, (t.substitute (single q u)).mentions x = false) (hu : ∀ x, u.mentions x = false) :
    compose [single p t, single q u] =
      .ok ((single p (t.substitute (single q u))).insert q u) := by
  have houter : absorb (single p t) (single q u) =
      .ok ((single p (t.substitute (single q u))).insert q u) := by
    rw [absorb_single (by rw [get?_single, if_neg hpq]), apply_single]
  exact compose_pair (absorb_single rfl) houter ((binds_single p ht).insert q hu)

end Combiner

end CallGraphs
