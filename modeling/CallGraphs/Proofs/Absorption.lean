import CallGraphs.Proofs.Occurrences

/-!
# CallGraphs.Proofs.Absorption

What a map of a chain adds to the types collected so far, one parameter at a
time.  A parameter keeps the type collected for it, rewritten by the map, and
takes the one of the map only if none was collected, or the parameter itself.

* `foldlM_merge` — adding several bindings: the result, or the first conflict;
* `absorb_cases` — the same for a map;
* `closed_compose` — a chain that ends in closed types for all parameters of
  its inner maps composes to closed types.
-/

namespace CallGraphs

namespace Combiner

open Substitution

variable {collected map s : Substitution} {p : TypeParameter} {t u : Ty}

/-! ## one parameter -/

/-- Two types that are given to a parameter agree if they are equal or one of
them is the parameter itself. -/
def Agree (p : TypeParameter) (t u : Ty) : Prop := t = u ∨ u = .parameter p ∨ t = .parameter p

/-- What a parameter is bound to when another binding of it is added. -/
def added (p : TypeParameter) : Option Ty → Option Ty → Option Ty
  | none, u => u
  | some t, none => some t
  | some t, some u => some (if t = .parameter p then u else t)

@[simp] theorem added_none_left (p : TypeParameter) (u : Option Ty) : added p none u = u := rfl

@[simp] theorem added_none_right (p : TypeParameter) (t : Option Ty) : added p t none = t := by
  cases t <;> rfl

/-- A type other than the parameter itself is kept. -/
theorem added_of_ne (h : t ≠ .parameter p) (u : Option Ty) : added p (some t) u = some t := by
  cases u <;> simp [added, h]

theorem Agree.of_ne (h : Agree p t u) (ht : t ≠ .parameter p) (hu : u ≠ .parameter p) : t = u :=
  h.resolve_right fun h => h.elim hu ht

/-! ## one binding -/

/-- A binding that agrees with the collected one is added. -/
theorem merge_of_agree (h : ∀ t, collected.get? p = some t → Agree p t u) :
    ∃ s, merge collected (p, u) = .ok s ∧
      ∀ q, s.get? q = if q = p then added p (collected.get? p) (some u) else collected.get? q := by
  rw [merge]
  cases hp : collected.get? p with
  | none =>
      refine ⟨_, rfl, fun q => ?_⟩
      rw [get?_insert, added_none_left]
  | some t =>
      dsimp only
      by_cases hkeep : t = u ∨ u = .parameter p
      · refine ⟨collected, if_pos hkeep, fun q => ?_⟩
        by_cases hq : q = p
        · subst hq
          rw [if_pos rfl, hp, added]
          grind
        · rw [if_neg hq]
      · have hgive : t = .parameter p := by
          obtain ht | hu | ht := h t hp
          · exact absurd (.inl ht) hkeep
          · exact absurd (.inr hu) hkeep
          · exact ht
        refine ⟨_, (if_neg hkeep).trans (if_pos hgive), fun q => ?_⟩
        rw [get?_insert, added, if_pos hgive]

/-- A binding that does not is a conflict. -/
theorem merge_of_not_agree (hp : collected.get? p = some t) (h : ¬ Agree p t u) :
    merge collected (p, u) = .error (.resolutionConflict p.text t.text u.text) := by
  rw [merge, hp]
  dsimp only
  rw [if_neg fun hkeep => h (hkeep.elim .inl fun hu => .inr (.inl hu)),
    if_neg fun hgive => h (.inr (.inr hgive))]

/-! ## several bindings -/

/-- Adding bindings of distinct parameters: either each of them agrees with
the collected one, or one of them is a conflict. -/
theorem foldlM_merge {es : List (TypeParameter × Ty)} (hes : es.Pairwise Before)
    (collected : Substitution) :
    (∃ s, es.foldlM merge collected = .ok s ∧
      (∀ p, s.get? p = added p (collected.get? p) (lookupEntry p es)) ∧
      ∀ p t u, collected.get? p = some t → lookupEntry p es = some u → Agree p t u) ∨
    ∃ p t u, es.foldlM merge collected = .error (.resolutionConflict p.text t.text u.text) ∧
      collected.get? p = some t ∧ lookupEntry p es = some u ∧ ¬ Agree p t u := by
  induction es generalizing collected with
  | nil => exact .inl ⟨collected, rfl, fun p => by simp [lookupEntry], by simp [lookupEntry]⟩
  | cons d es ih =>
      obtain ⟨p, u⟩ := d
      obtain ⟨hfirst, hrest⟩ := List.pairwise_cons.1 hes
      have hnone : lookupEntry p es = none := lookupEntry_eq_none (e := (p, u)) hfirst
      by_cases hagree : ∀ t, collected.get? p = some t → Agree p t u
      · obtain ⟨s, hs, hview⟩ := merge_of_agree hagree
        rw [List.foldlM_cons, hs]
        -- the other bindings are of other parameters, which are collected as before
        have hother {q : TypeParameter} (hq : q ≠ p) : s.get? q = collected.get? q := by
          rw [hview, if_neg hq]
        obtain ⟨s', hs', hview', hagree'⟩ | ⟨q, t, v, herror, hq, hv, hnot⟩ := ih hrest s
        · refine .inl ⟨s', hs', fun q => ?_, fun q t v hq hv => ?_⟩
          · rw [hview', lookupEntry]
            by_cases hqp : q = p
            · rw [if_pos hqp, hqp, hnone, added_none_right, hview, if_pos rfl]
            · rw [if_neg hqp, hother hqp]
          · rw [lookupEntry] at hv
            by_cases hqp : q = p
            · rw [if_pos hqp, Option.some.injEq] at hv
              subst hqp hv
              exact hagree t hq
            · rw [if_neg hqp] at hv
              exact hagree' q t v ((hother hqp).trans hq) hv
        · have hqp : q ≠ p := by
            rintro rfl
            rw [hnone] at hv
            cases hv
          refine .inr ⟨q, t, v, herror, (hother hqp).symm.trans hq, ?_, hnot⟩
          rw [lookupEntry, if_neg hqp, hv]
      · simp only [not_forall] at hagree
        obtain ⟨t, hp, hnot⟩ := hagree
        refine .inr ⟨p, t, u, ?_, hp, ?_, hnot⟩
        · rw [List.foldlM_cons, merge_of_not_agree hp hnot]
          rfl
        · rw [lookupEntry, if_pos rfl]

/-! ## maps -/

/-- A map is absorbed if it agrees with what was collected, once that is
rewritten by it; else there is a conflict. -/
theorem absorb_cases (collected map : Substitution) :
    (∃ s, absorb collected map = .ok s ∧
      (∀ p, s.get? p = added p ((collected.get? p).map (·.substitute map)) (map.get? p)) ∧
      ∀ p t u, collected.get? p = some t → map.get? p = some u → Agree p (t.substitute map) u) ∨
    ∃ p t u, absorb collected map =
        .error (.resolutionConflict p.text (t.substitute map).text u.text) ∧
      collected.get? p = some t ∧ map.get? p = some u ∧ ¬ Agree p (t.substitute map) u := by
  obtain ⟨s, hs, hview, hagree⟩ | ⟨p, t, u, herror, ht, hu, hnot⟩ :=
    foldlM_merge map.sorted (collected.apply map)
  · refine .inl ⟨s, hs, fun p => ?_, fun p t u ht hu => hagree p _ u ?_ hu⟩
    · rw [hview, get?_apply]
      rfl
    · rw [get?_apply, ht]
      rfl
  · rw [get?_apply, Option.map_eq_some_iff] at ht
    obtain ⟨t, ht, rfl⟩ := ht
    exact .inr ⟨p, t, u, herror, ht, hu, hnot⟩

/-- What is bound after a map was absorbed. -/
theorem get?_absorb (h : absorb collected map = .ok s) (p : TypeParameter) :
    s.get? p = added p ((collected.get? p).map (·.substitute map)) (map.get? p) := by
  obtain ⟨s', hs', hview, -⟩ | ⟨q, t, u, herror, -⟩ := absorb_cases collected map
  · rw [h, Except.ok.injEq] at hs'
    rw [hs', hview]
  · rw [h] at herror
    cases herror

/-- The first map of a chain is collected as it is. -/
theorem empty_absorb (map : Substitution) : absorb ∅ map = .ok map := by
  obtain ⟨s, hs, hview, -⟩ | ⟨p, t, u, -, ht, -⟩ := absorb_cases ∅ map
  · rw [hs, Except.ok.injEq]
    refine ext_get? fun p => ?_
    rw [hview, get?_empty, Option.map_none, added_none_left]
  · rw [get?_empty] at ht
    cases ht

/-- A property of the rewritten types and of those of the map is one of the
result. -/
theorem binds_of_absorb {P : Ty → Prop} (hcollected : (collected.apply map).Binds P)
    (hmap : map.Binds P) (h : absorb collected map = .ok s) : s.Binds P :=
  foldlM_induction (fun d hd _ _ ha => binds_merge ha (hmap d hd)) hcollected h

/-! ## chains -/

/-- A composition is what was collected, if nothing circular was. -/
theorem compose_eq_ok_iff {chain : List Substitution} :
    compose chain = .ok s ↔ chain.foldlM absorb ∅ = .ok s ∧ checkCircular s = .ok s := by
  rw [compose]
  cases chain.foldlM absorb ∅ with
  | error e =>
      refine ⟨fun h => ?_, fun h => ?_⟩
      · cases h
      · cases h.1
  | ok collected =>
      show checkCircular collected = .ok s ↔ _
      rw [Except.ok.injEq]
      refine ⟨fun h => ?_, fun h => h.1 ▸ h.2⟩
      have hsame : collected = s := by
        rw [checkCircular] at h
        split at h
        · cases h
        · exact Except.ok.inj h
      exact ⟨hsame, hsame ▸ h⟩

/-- A chain is refused for a conflict or for a circular binding. -/
theorem compose_error_cases {chain : List Substitution} {e : BuildError}
    (h : compose chain = .error e) :
    (∃ p t u, e = .resolutionConflict p t u) ∨ ∃ p t, e = .selfReference p t := by
  have hfold (collected : Substitution) (herror : chain.foldlM absorb collected = .error e) :
      ∃ p t u, e = .resolutionConflict p t u := by
    clear h
    induction chain generalizing collected with
    | nil => cases herror
    | cons map rest ih =>
        rw [List.foldlM_cons] at herror
        obtain ⟨s, hs, -⟩ | ⟨p, t, u, hconflict, -⟩ := absorb_cases collected map
        · rw [hs] at herror
          exact ih s herror
        · rw [hconflict] at herror
          cases herror
          exact ⟨_, _, _, rfl⟩
  rw [compose] at h
  cases hcollected : chain.foldlM absorb ∅ with
  | error err =>
      rw [hcollected] at h
      cases h
      exact .inl (hfold ∅ hcollected)
  | ok collected =>
      rw [hcollected] at h
      have hcircular : checkCircular collected = .error e := h
      rw [checkCircular] at hcircular
      split at hcircular
      · cases hcircular
        exact .inr ⟨_, _, rfl⟩
      · cases hcircular

/-- A chain is collected part by part. -/
theorem foldlM_absorb_append {inner outer : List Substitution} :
    (inner ++ outer).foldlM absorb ∅ = .ok s ↔
      ∃ collected, inner.foldlM absorb ∅ = .ok collected ∧ outer.foldlM absorb collected = .ok s := by
  rw [List.foldlM_append]
  cases inner.foldlM absorb ∅ with
  | error e =>
      refine ⟨fun h => ?_, fun ⟨c, h, _⟩ => ?_⟩
      · cases h
      · cases h
  | ok collected =>
      show outer.foldlM absorb collected = .ok s ↔ _
      simp

/-- The last map of a chain is absorbed by what the others collect. -/
theorem foldlM_absorb_concat {maps : List Substitution} {last : Substitution} :
    (maps ++ [last]).foldlM absorb ∅ = .ok s ↔
      ∃ collected, maps.foldlM absorb ∅ = .ok collected ∧ absorb collected last = .ok s := by
  simp only [foldlM_absorb_append, List.foldlM_cons, List.foldlM_nil, bind_pure]

/-- A chain of maps over given parameters that ends in closed types for all
of them composes to closed types. -/
theorem closed_compose {maps : List Substitution} {last : Substitution}
    {parameters : List TypeParameter} (hmaps : ∀ map ∈ maps, map.Binds (Ty.Over parameters))
    (hbound : ∀ p ∈ parameters, (last.get? p).isSome) (hlast : last.Binds Ty.Closed)
    (h : compose (maps ++ [last]) = .ok s) : s.Binds Ty.Closed := by
  obtain ⟨collected, hcollected, habsorb⟩ := foldlM_absorb_concat.1 (compose_eq_ok_iff.1 h).1
  have hover : collected.Binds (Ty.Over parameters) :=
    foldlM_induction (fun map hmap _ _ ha => binds_absorb (fun _ _ => Ty.Over.substitute) ha
      (hmaps map hmap)) (binds_empty _) hcollected
  refine binds_of_absorb (hover.apply fun t ht => ?_) hlast habsorb
  exact ht.closed_substitute hbound hlast

end Combiner

end CallGraphs
