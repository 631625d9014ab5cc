import CallGraphs.Proofs.Absorption

/-!
# CallGraphs.Proofs.Chains

What a chain of substitutions composes to, however long it is.  A parameter has
the type of the innermost map that binds it, and each map further out rewrites
that type.  There is one exception: where a map turns the type of a parameter
into the bare parameter itself, and binds that parameter too, its own binding
takes over.

* `get?_foldlM_absorb` — the type that a chain collects for a parameter;
* `compose_rewrites` — what a composition binds;
* `Ty.substitute_ne_of_mentions`, `circular_absorb` — a circular type stays
  circular, whatever is substituted into it;
* `compose_extends` — chains that go on after they were composed or refused.
-/

namespace CallGraphs

/-! ## types with a parameter inside -/

namespace Ty

variable {s : Substitution} {p : TypeParameter} {t u : Ty}

mutual

/-- What replaces a parameter is no larger than the type that mentions it. -/
theorem sizeOf_le_substitute (hu : s.get? p = some u) :
    (t : Ty) → t.mentions p = true → sizeOf u ≤ sizeOf (t.substitute s)
  | .primitive _, h => by simp [mentions] at h
  | .array item, h => by
      have hitem := sizeOf_le_substitute hu item (by simpa [mentions] using h)
      simp only [substitute, array.sizeOf_spec]
      omega
  | .tuple items, h => by
      have hitems := sizeOf_le_substituteList hu items (by simpa [mentions] using h)
      simp only [substitute, tuple.sizeOf_spec]
      omega
  | .function i o, h => by
      simp only [substitute, function.sizeOf_spec]
      obtain h | h := Bool.or_eq_true_iff.1 h
      · have := sizeOf_le_substitute hu i h
        omega
      · have := sizeOf_le_substitute hu o h
        omega
  | .operation i o, h => by
      simp only [substitute, operation.sizeOf_spec]
      obtain h | h := Bool.or_eq_true_iff.1 h
      · have := sizeOf_le_substitute hu i h
        omega
      · have := sizeOf_le_substitute hu o h
        omega
  | .userDefined _, h => by simp [mentions] at h
  | .parameter q, h => by
      obtain rfl : q = p := by simpa [mentions] using h
      simp [substitute, hu]
  | .missing, h => by simp [mentions] at h

theorem sizeOf_le_substituteList (hu : s.get? p = some u) :
    (ts : List Ty) → anyMentions p ts = true → sizeOf u ≤ sizeOf (substituteList s ts)
  | [], h => by simp [anyMentions] at h
  | t :: ts, h => by
      simp only [substituteList, List.cons.sizeOf_spec]
      obtain h | h := Bool.or_eq_true_iff.1 h
      · have := sizeOf_le_substitute hu t h
        omega
      · have := sizeOf_le_substituteList hu ts h
        omega

end

/-- So a type with a parameter inside never becomes what replaces it. -/
theorem substitute_ne_of_mentions (hu : s.get? p = some u) (ht : t ≠ .parameter p)
    (h : t.mentions p = true) : t.substitute s ≠ u := by
  intro heq
  have hsize : sizeOf u = sizeOf (t.substitute s) := by rw [heq]
  cases t with
  | primitive q => simp [mentions] at h
  | array item =>
      have := sizeOf_le_substitute hu item (by simpa [mentions] using h)
      simp only [substitute, array.sizeOf_spec] at hsize
      omega
  | tuple items =>
      have := sizeOf_le_substituteList hu items (by simpa [mentions] using h)
      simp only [substitute, tuple.sizeOf_spec] at hsize
      omega
  | function i o =>
      simp only [substitute, function.sizeOf_spec] at hsize
      obtain h | h := Bool.or_eq_true_iff.1 h
      · have := sizeOf_le_substitute hu i h
        omega
      · have := sizeOf_le_substitute hu o h
        omega
  | operation i o =>
      simp only [substitute, operation.sizeOf_spec] at hsize
      obtain h | h := Bool.or_eq_true_iff.1 h
      · have := sizeOf_le_substitute hu i h
        omega
      · have := sizeOf_le_substitute hu o h
        omega
  | userDefined name => simp [mentions] at h
  | parameter q =>
      obtain rfl : q = p := by simpa [mentions] using h
      exact ht rfl
  | missing => simp [mentions] at h

/-- Only a parameter can become a bare parameter. -/
theorem substitute_eq_parameter_iff :
    t.substitute s = .parameter p ↔
      ∃ q, t = .parameter q ∧ (s.get? q = some (.parameter p) ∨ (s.get? q = none ∧ q = p)) := by
  cases t with
  | parameter q => cases hq : s.get? q <;> simp [substitute, hq]
  | _ => simp [substitute]

end Ty

/-! ## bound parameters -/

namespace Substitution

variable {s : Substitution} {p : TypeParameter} {t : Ty}

theorem lookupEntry_of_mem {es : List (TypeParameter × Ty)} (hes : es.Pairwise Before)
    (h : (p, t) ∈ es) : lookupEntry p es = some t := by
  induction es with
  | nil => cases h
  | cons e es ih =>
      obtain ⟨hfirst, hrest⟩ := List.pairwise_cons.1 hes
      rw [lookupEntry]
      obtain rfl | h := List.mem_cons.1 h
      · exact if_pos rfl
      · rw [if_neg (hfirst _ h).ne.symm]
        exact ih hrest h

/-- The keys are the parameters that are bound. -/
theorem mem_keys_iff : p ∈ s.keys ↔ (s.get? p).isSome := by
  rw [keys, List.mem_map, Option.isSome_iff_exists]
  constructor
  · rintro ⟨⟨q, t⟩, hmem, rfl⟩
    exact ⟨t, lookupEntry_of_mem s.sorted hmem⟩
  · rintro ⟨t, ht⟩
    exact ⟨(p, t), mem_of_lookupEntry ht, rfl⟩

/-- A map captures a parameter if it replaces another one by it, and binds it
to some other type. -/
def Captures (s : Substitution) (p : TypeParameter) : Prop :=
  ∃ q u, q ≠ p ∧ s.get? q = some (.parameter p) ∧ s.get? p = some u ∧ u ≠ .parameter p

end Substitution

namespace Combiner

open Substitution

variable {collected map s : Substitution} {chain ms ns : List Substitution} {p : TypeParameter}
  {t : Ty}

/-! ## what a chain binds -/

/-- The type of a parameter after the next map of a chain: it is rewritten by the
map, unless that leaves the bare parameter and the map binds it. -/
def carry (p : TypeParameter) (t : Ty) (map : Substitution) : Ty :=
  if t.substitute map = .parameter p then (map.get? p).getD (.parameter p) else t.substitute map

/-- A map that does not capture the parameter only rewrites its type. -/
theorem carry_of_not_captures (h : ¬ map.Captures p) : carry p t map = t.substitute map := by
  rw [carry]
  by_cases hbare : t.substitute map = .parameter p
  · rw [if_pos hbare, hbare]
    cases hu : map.get? p with
    | none => rfl
    | some u =>
        obtain ⟨q, rfl, hq⟩ := Ty.substitute_eq_parameter_iff.1 hbare
        by_cases hqp : q = p
        · subst hqp
          obtain hq | ⟨hnone, -⟩ := hq
          · exact Option.some.inj (hu.symm.trans hq)
          · rw [hnone] at hu
            cases hu
        · by_contra hne
          exact h ⟨q, u, hqp, hq.resolve_right fun hq => hqp hq.2, hu, hne⟩
  · rw [if_neg hbare]

theorem get?_absorb_of_some (h : absorb collected map = .ok s) (ht : collected.get? p = some t) :
    s.get? p = some (carry p t map) := by
  rw [get?_absorb h, ht, Option.map_some, carry]
  cases map.get? p with
  | none => by_cases hbare : t.substitute map = .parameter p <;> simp [hbare]
  | some u => by_cases hbare : t.substitute map = .parameter p <;> simp [added, hbare]

/-- Every map of a chain carries the type of a parameter on. -/
theorem get?_foldlM_absorb (h : chain.foldlM absorb collected = .ok s)
    (ht : collected.get? p = some t) : s.get? p = some (chain.foldl (carry p) t) := by
  induction chain generalizing collected t with
  | nil =>
      cases h
      exact ht
  | cons map rest ih =>
      rw [List.foldlM_cons] at h
      cases hmap : absorb collected map with
      | error e =>
          rw [hmap] at h
          cases h
      | ok next =>
          rw [hmap] at h
          exact ih h (get?_absorb_of_some hmap ht)

/-- A parameter is bound by what was collected or by a map. -/
theorem isSome_get?_foldlM_absorb (h : chain.foldlM absorb collected = .ok s) :
    (s.get? p).isSome ↔ (collected.get? p).isSome ∨ ∃ map ∈ chain, (map.get? p).isSome := by
  induction chain generalizing collected with
  | nil =>
      cases h
      simp
  | cons map rest ih =>
      rw [List.foldlM_cons] at h
      cases hmap : absorb collected map with
      | error e =>
          rw [hmap] at h
          cases h
      | ok next =>
          rw [hmap] at h
          have hnext : (next.get? p).isSome ↔ (collected.get? p).isSome ∨ (map.get? p).isSome := by
            rw [get?_absorb hmap]
            cases collected.get? p <;> cases map.get? p <;> simp [added]
          simp only [ih h, hnext, List.mem_cons, exists_eq_or_imp, or_assoc]

/-- The innermost map that binds a parameter gives it its type, and the maps
further out carry that on. -/
theorem get?_foldlM_absorb_of_innermost {inner outer : List Substitution}
    (h : (inner ++ map :: outer).foldlM absorb ∅ = .ok s) (hinner : ∀ m ∈ inner, p ∉ m.keys)
    (ht : map.get? p = some t) : s.get? p = some (outer.foldl (carry p) t) := by
  obtain ⟨c, hc, hrest⟩ := foldlM_absorb_append.1 h
  rw [List.foldlM_cons] at hrest
  have hnone : c.get? p = none := by
    rw [← Option.not_isSome_iff_eq_none, isSome_get?_foldlM_absorb hc]
    rintro (hempty | ⟨m, hm, hbound⟩)
    · cases hempty
    · exact hinner m hm (mem_keys_iff.2 hbound)
  cases hmap : absorb c map with
  | error e =>
      rw [hmap] at hrest
      cases hrest
  | ok next =>
      rw [hmap] at hrest
      refine get?_foldlM_absorb hrest ?_
      rw [get?_absorb hmap, hnone, ht]
      rfl

/-- Maps that do not capture the parameter rewrite its type one after the
other. -/
theorem foldl_carry_of_not_captures (h : ∀ m ∈ chain, ¬ m.Captures p) (t : Ty) :
    chain.foldl (carry p) t = chain.foldl (fun t m => t.substitute m) t := by
  induction chain generalizing t with
  | nil => rfl
  | cons map rest ih =>
      obtain ⟨hmap, hrest⟩ := List.forall_mem_cons.1 h
      rw [List.foldl_cons, List.foldl_cons, carry_of_not_captures hmap, ih hrest]

/-! ## circular types -/

theorem circular_iff : circular (p, t) = true ↔ t ≠ .parameter p ∧ t.mentions p = true := by
  rw [circular, Bool.and_eq_true, Bool.not_eq_true', ← Bool.not_eq_true, Ty.isParameter_iff]

/-- What was collected is a composition unless some type in it is circular. -/
theorem checkCircular_cases (s : Substitution) :
    (checkCircular s = .ok s ∧ ∀ p t, s.get? p = some t → circular (p, t) = false) ∨
    ∃ p t, checkCircular s = .error (.selfReference p.text t.text) ∧
      s.get? p = some t ∧ circular (p, t) = true := by
  rw [checkCircular]
  cases hfind : s.entries.find? circular with
  | none =>
      refine .inl ⟨rfl, fun p t ht => ?_⟩
      simpa using List.find?_eq_none.1 hfind (p, t) (mem_of_lookupEntry ht)
  | some e =>
      obtain ⟨p, t⟩ := e
      exact .inr ⟨p, t, rfl, lookupEntry_of_mem s.sorted (List.mem_of_find?_eq_some hfind),
        List.find?_some hfind⟩

/-- A circular type that is rewritten stays circular: the map would have to
bind the parameter to a type inside which it stands. -/
theorem circular_absorb (h : absorb collected map = .ok s) (ht : collected.get? p = some t)
    (hcircular : circular (p, t) = true) :
    ∃ u, s.get? p = some u ∧ circular (p, u) = true := by
  obtain ⟨hne, hmentions⟩ := circular_iff.1 hcircular
  have hbare : t.substitute map ≠ .parameter p := by
    intro hbare
    obtain ⟨q, rfl, -⟩ := Ty.substitute_eq_parameter_iff.1 hbare
    obtain rfl : q = p := by simpa [Ty.mentions] using hmentions
    exact hne rfl
  refine ⟨t.substitute map, ?_, circular_iff.2 ⟨hbare, ?_⟩⟩
  · rw [get?_absorb_of_some h ht, carry, if_neg hbare]
  · rw [Ty.mentions_substitute_iff]
    cases hu : map.get? p with
    | none => exact .inl ⟨rfl, hmentions⟩
    | some u =>
        obtain ⟨s', -, -, hagree⟩ | ⟨_, _, _, herror, -⟩ := absorb_cases collected map
        · obtain heq | rfl | heq := hagree p t u ht hu
          · exact absurd heq (Ty.substitute_ne_of_mentions hu hne hmentions)
          · exact .inr ⟨p, .parameter p, hmentions, hu, by simp [Ty.mentions]⟩
          · exact absurd heq hbare
        · rw [h] at herror
          cases herror

/-- So a chain that collected a circular type is never composed. -/
theorem circular_foldlM_absorb (h : chain.foldlM absorb collected = .ok s)
    (ht : collected.get? p = some t) (hcircular : circular (p, t) = true) :
    ∃ e, checkCircular s = .error e := by
  obtain ⟨u, hu, hcircular⟩ : ∃ u, s.get? p = some u ∧ circular (p, u) = true := by
    refine foldlM_induction (I := fun c => ∃ u, c.get? p = some u ∧ circular (p, u) = true)
      (fun map _ c c' hc hmap => ?_) ⟨t, ht, hcircular⟩ h
    obtain ⟨u, hu, hcircular⟩ := hc
    exact circular_absorb hmap hu hcircular
  obtain ⟨-, hnone⟩ | ⟨q, v, herror, -⟩ := checkCircular_cases s
  · rw [hnone p u hu] at hcircular
    cases hcircular
  · exact ⟨_, herror⟩

/-! ## longer chains -/

/-- A chain goes on from what was collected. -/
theorem compose_append_of_ok (h : ms.foldlM absorb ∅ = .ok s) (ns : List Substitution) :
    compose (ms ++ ns) = (ns.foldlM absorb s >>= checkCircular) := by
  rw [compose, List.foldlM_append, h]
  rfl

/-- A conflict is not mended by the rest of a chain. -/
theorem compose_append_of_error {e : BuildError} (h : ms.foldlM absorb ∅ = .error e)
    (ns : List Substitution) : compose (ms ++ ns) = .error e := by
  rw [compose, List.foldlM_append, h]
  rfl

/-- A refused chain is refused with more maps at its end. -/
theorem compose_append_of_refused {e : BuildError} (h : compose ms = .error e)
    (ns : List Substitution) :
    ∃ e', compose (ms ++ ns) = .error e' ∧ ∀ p t u, e = .resolutionConflict p t u → e' = e := by
  cases hfold : ms.foldlM absorb ∅ with
  | error e' =>
      have hsame : e' = e := by
        have h' := compose_append_of_error hfold []
        rw [List.append_nil, h] at h'
        exact (Except.error.inj h').symm
      exact ⟨e', compose_append_of_error hfold ns, fun _ _ _ _ => hsame⟩
  | ok c =>
      have hcheck : checkCircular c = .error e := by
        have h' := compose_append_of_ok hfold []
        rw [List.append_nil, h] at h'
        exact h'.symm
      obtain ⟨hok, -⟩ | ⟨p, t, herror, ht, hcircular⟩ := checkCircular_cases c
      · rw [hok] at hcheck
        cases hcheck
      · rw [herror] at hcheck
        cases hcheck
        rw [compose_append_of_ok hfold]
        cases hrest : ns.foldlM absorb c with
        | error e' =>
            refine ⟨e', rfl, fun _ _ _ hconflict => ?_⟩
            cases hconflict
        | ok s =>
            obtain ⟨e', he'⟩ := circular_foldlM_absorb hrest ht hcircular
            refine ⟨e', he', fun _ _ _ hconflict => ?_⟩
            cases hconflict

/-- Empty maps are absorbed without a trace. -/
theorem foldlM_absorb_filter (chain : List Substitution) (collected : Substitution) :
    (chain.filter fun map => !map.isEmpty).foldlM absorb collected =
      chain.foldlM absorb collected := by
  induction chain generalizing collected with
  | nil => rfl
  | cons map rest ih =>
      cases hmap : map.isEmpty with
      | true =>
          obtain rfl := isEmpty_iff.1 hmap
          rw [List.filter_cons_of_neg (by simp), ih, List.foldlM_cons, absorb_empty]
          rfl
      | false =>
          rw [List.filter_cons_of_pos (by simp [hmap]), List.foldlM_cons, List.foldlM_cons]
          exact bind_congr fun c => ih c

theorem compose_filter (chain : List Substitution) :
    compose (chain.filter fun map => !map.isEmpty) = compose chain := by
  rw [compose, compose, foldlM_absorb_filter]

/-! ## composition -/

/-- A composition binds what the maps of the chain bind, each parameter to the
type of the innermost map that binds it, which the maps further out rewrite one
after the other.  Where that leaves the bare parameter and the map binds it, its
own binding takes over, which happens only to a parameter that the map captures.
No parameter is bound to a larger type that mentions it. -/
theorem compose_rewrites (h : compose chain = .ok s) :
    (∀ p, p ∈ s.keys ↔ ∃ map ∈ chain, p ∈ map.keys) ∧
    (∀ inner map outer p t, chain = inner ++ map :: outer → (∀ m ∈ inner, p ∉ m.keys) →
      map.get? p = some t →
        s.get? p = some (outer.foldl (carry p) t) ∧
        ((∀ m ∈ outer, ¬ m.Captures p) →
          s.get? p = some (outer.foldl (fun t m => t.substitute m) t))) ∧
    ∀ p t, s.get? p = some t → t ≠ .parameter p → t.mentions p = false := by
  obtain ⟨hfold, hcheck⟩ := compose_eq_ok_iff.1 h
  refine ⟨fun p => ?_, fun inner map outer p t hchain hinner ht => ?_, fun p t ht hne => ?_⟩
  · simp only [mem_keys_iff, isSome_get?_foldlM_absorb hfold, get?_empty, Option.isSome_none,
      Bool.false_eq_true, false_or]
  · subst hchain
    have hcarry := get?_foldlM_absorb_of_innermost hfold hinner ht
    refine ⟨hcarry, fun hcaptures => ?_⟩
    rw [hcarry, foldl_carry_of_not_captures hcaptures]
  · obtain ⟨-, hnone⟩ | ⟨q, u, herror, -⟩ := checkCircular_cases s
    · rw [← Bool.not_eq_true]
      intro hmentions
      have hcircular := circular_iff.2 ⟨hne, hmentions⟩
      rw [hnone p t ht] at hcircular
      cases hcircular
    · rw [hcheck] at herror
      cases herror

/-- The map of the caller turns the type of `T` into the bare `T` and binds it as
well, so `T` has the type of that binding; inside the type of `U` it is only
rewritten. -/
theorem compose_rewrites_captured :
    let t : TypeParameter := ⟨⟨"Test", "F"⟩, "T"⟩
    let u : TypeParameter := ⟨⟨"Test", "F"⟩, "U"⟩
    let v : TypeParameter := ⟨⟨"Test", "G"⟩, "V"⟩
    let inner : Substitution := single u (.array (.parameter t))
    let middle : Substitution := single t (.parameter v)
    let caller : Substitution := (single v (.parameter t)).insert t (.primitive .int)
    ∃ s, compose [inner, middle, caller] = .ok s ∧ caller.Captures t ∧ v ∈ s.keys ∧
      s.get? t = some (.primitive .int) ∧ s.get? u = some (.array (.parameter t)) := by
  intro t u v inner middle caller
  have h : compose [inner, middle, caller] =
      .ok (ofList [(t, .primitive .int), (u, .array (.parameter t)), (v, .parameter t)]) := by
    decide +kernel
  have hkey : v ∈ caller.keys := by decide +kernel
  refine ⟨_, h, ⟨v, .primitive .int, by decide, by decide, by decide, by decide⟩,
    ((compose_rewrites h).1 v).2 ⟨caller, by simp, hkey⟩, ?_, ?_⟩
  · refine ((compose_rewrites h).2.1 [inner] middle [caller] t (.parameter v) rfl
      (by decide +kernel) (by decide)).1.trans ?_
    decide +kernel
  · refine ((compose_rewrites h).2.1 [] inner [middle, caller] u (.array (.parameter t)) rfl
      (by simp) (by decide)).1.trans ?_
    decide +kernel

/-- A captured parameter does not have the type that comes out when the maps
further out are substituted into its own. -/
theorem captured_parameter_not_rewritten :
    let t : TypeParameter := ⟨⟨"Test", "F"⟩, "T"⟩
    let v : TypeParameter := ⟨⟨"Test", "G"⟩, "V"⟩
    let inner : Substitution := single t (.parameter v)
    let outer : Substitution := (single v (.parameter t)).insert t (.primitive .int)
    ∃ s, compose [inner, outer] = .ok s ∧ inner.get? t = some (.parameter v) ∧
      (Ty.parameter v).substitute outer = .parameter t ∧ s.get? t = some (.primitive .int) ∧
      s.get? t ≠ some ((Ty.parameter v).substitute outer) := by
  intro t v inner outer
  exact ⟨ofList [(t, .primitive .int), (v, .parameter t)], by decide +kernel⟩

/-- Composing incrementally.  A chain that was composed may be replaced by its
composition where it goes on, and one that was refused is refused however it
goes on, a conflict being the same one.  Empty maps may be put anywhere into a
chain or left out of it. -/
theorem compose_extends (ms ns : List Substitution) :
    (∀ c, compose ms = .ok c → compose (ms ++ ns) = compose ([c] ++ ns)) ∧
    (∀ e, compose ms = .error e → ∃ e', compose (ms ++ ns) = .error e' ∧
      ∀ p t u, e = .resolutionConflict p t u → e' = e) ∧
    compose (ms ++ [∅] ++ ns) = compose (ms ++ ns) ∧
    compose (ms.filter fun map => !map.isEmpty) = compose ms := by
  refine ⟨fun c h => ?_, fun e h => compose_append_of_refused h ns, ?_, compose_filter ms⟩
  · have hfold := (compose_eq_ok_iff.1 h).1
    have hsingle : [c].foldlM absorb ∅ = .ok c := by
      rw [List.foldlM_cons, empty_absorb]
      rfl
    rw [compose_append_of_ok hfold, compose_append_of_ok hsingle]
  · rw [← compose_filter (ms ++ [∅] ++ ns), ← compose_filter (ms ++ ns)]
    simp

end Combiner

end CallGraphs
