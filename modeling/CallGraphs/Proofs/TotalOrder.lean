import CallGraphs.Graph.Basic
import CallGraphs.Proofs.Chains
import Mathlib.Data.List.Nodup

/-!
# CallGraphs.Proofs.TotalOrder

The orders on names, type parameters, types and nodes, and what rests on them: a
substitution is the same in whichever order its bindings were put in.

* `Ty.compare_swap`, `Ty.lt_trans` — types compare in a total order;
* `ofList_perm` — distinct bindings may be put in in any order;
* `perm_entries_ofList` — and all of them are listed, by increasing parameter;
* `orders_total` — the orders, and equal substitutions on equal edges.
-/

namespace CallGraphs

/-! ## total orders -/

/-- A comparison is that of a total order: only equal values compare as equal,
the other way round the answer is the opposite one, and what comes before
something comes before whatever follows that. -/
structure ComparesTotally (α : Type) [Ord α] : Prop where
  eq_iff : ∀ x y : α, compare x y = .eq ↔ x = y
  swap : ∀ x y : α, compare y x = (compare x y).swap
  trans : ∀ x y z : α, compare x y = .lt → compare y z = .lt → compare x z = .lt

theorem comparesTotally (α : Type) [Ord α] [Std.TransOrd α] [Std.LawfulEqOrd α] :
    ComparesTotally α where
  eq_iff _ _ := Std.compare_eq_iff_eq
  swap _ _ := Std.OrientedOrd.eq_swap
  trans _ _ _ := Std.TransCmp.lt_trans

/-- Comparing by first parts and then by second parts leads on if either does. -/
theorem then_lt_trans {α β : Type} {f : α → α → Ordering} {g : β → β → Ordering}
    {a b c : α} {x y z : β} (heq : ∀ {a b}, f a b = .eq → a = b)
    (hf : f a b = .lt → f b c = .lt → f a c = .lt)
    (hg : g x y = .lt → g y z = .lt → g x z = .lt)
    (h₁ : (f a b).then (g x y) = .lt) (h₂ : (f b c).then (g y z) = .lt) :
    (f a c).then (g x z) = .lt := by
  rw [Ordering.then_eq_lt] at h₁ h₂ ⊢
  obtain hab | ⟨hab, hxy⟩ := h₁
  · obtain hbc | ⟨hbc, -⟩ := h₂
    · exact .inl (hf hab hbc)
    · exact .inl (heq hbc ▸ hab)
  · have hfirst : f a c = f b c := by rw [heq hab]
    rw [hfirst]
    obtain hbc | ⟨hbc, hyz⟩ := h₂
    · exact .inl hbc
    · exact .inr ⟨hbc, hg hxy hyz⟩

/-! ## types -/

namespace Ty

variable {s t u : Ty}

/-- Types of different forms compare as their forms do. -/
theorem compare_of_rank_ne (h : s.rank ≠ t.rank) : s.compare t = Ord.compare s.rank t.rank := by
  cases s <;> cases t <;> first | rfl | exact absurd rfl h

/-- A type of an earlier form comes first. -/
theorem lt_of_rank_lt (h : s.rank < t.rank) : s.compare t = .lt := by
  rw [compare_of_rank_ne (Nat.ne_of_lt h)]
  exact Nat.compare_eq_lt.2 h

/-- No type comes before one of an earlier form. -/
theorem rank_le_of_lt (h : s.compare t = .lt) : s.rank ≤ t.rank := by
  by_cases hrank : s.rank = t.rank
  · exact Nat.le_of_eq hrank
  · rw [compare_of_rank_ne hrank] at h
    exact Nat.le_of_lt (Nat.compare_eq_lt.1 h)

/-- Between types of different forms the forms lead on. -/
theorem lt_trans_of_rank_ne (h₁ : s.compare t = .lt) (h₂ : t.compare u = .lt)
    (h : s.rank ≠ t.rank ∨ t.rank ≠ u.rank) : s.compare u = .lt := by
  have hst := rank_le_of_lt h₁
  have htu := rank_le_of_lt h₂
  exact lt_of_rank_lt (by omega)

mutual

/-- The other way round the answer is the opposite one. -/
theorem compare_swap : (s t : Ty) → t.compare s = (s.compare t).swap
  | .primitive p, t => by
      cases t with
      | primitive q => exact Std.OrientedOrd.eq_swap
      | _ => rfl
  | .array s, t => by
      cases t with
      | array t => exact compare_swap s t
      | _ => rfl
  | .tuple ss, t => by
      cases t with
      | tuple ts => exact compareList_swap ss ts
      | _ => rfl
  | .function i o, t => by
      cases t with
      | function j r => simp [Ty.compare, Ordering.swap_then, compare_swap i j, compare_swap o r]
      | _ => rfl
  | .operation i o, t => by
      cases t with
      | operation j r => simp [Ty.compare, Ordering.swap_then, compare_swap i j, compare_swap o r]
      | _ => rfl
  | .userDefined m, t => by
      cases t with
      | userDefined n => exact Std.OrientedOrd.eq_swap
      | _ => rfl
  | .parameter p, t => by
      cases t with
      | parameter q => exact Std.OrientedOrd.eq_swap
      | _ => rfl
  | .missing, t => by cases t <;> rfl

theorem compareList_swap : (ss ts : List Ty) → compareList ts ss = (compareList ss ts).swap
  | [], [] => rfl
  | [], _ :: _ => rfl
  | _ :: _, [] => rfl
  | s :: ss, t :: ts => by
      simp [compareList, Ordering.swap_then, compare_swap s t, compareList_swap ss ts]

end

mutual

/-- What comes before a type comes before whatever follows that. -/
theorem lt_trans : (s t u : Ty) → s.compare t = .lt → t.compare u = .lt → s.compare u = .lt
  -- a step to another form settles it; otherwise all three are of the form of the first
  | .primitive p, t, u, h₁, h₂ => by
      cases t with
      | primitive q =>
          cases u with
          | primitive r => exact (comparesTotally Nat).trans p.rank q.rank r.rank h₁ h₂
          | _ => exact lt_trans_of_rank_ne h₁ h₂ (.inr (by simp [rank]))
      | _ => exact lt_trans_of_rank_ne h₁ h₂ (.inl (by simp [rank]))
  | .array s, t, u, h₁, h₂ => by
      cases t with
      | array t =>
          cases u with
          | array u => exact lt_trans s t u h₁ h₂
          | _ => exact lt_trans_of_rank_ne h₁ h₂ (.inr (by simp [rank]))
      | _ => exact lt_trans_of_rank_ne h₁ h₂ (.inl (by simp [rank]))
  | .tuple ss, t, u, h₁, h₂ => by
      cases t with
      | tuple ts =>
          cases u with
          | tuple us => exact ltList_trans ss ts us h₁ h₂
          | _ => exact lt_trans_of_rank_ne h₁ h₂ (.inr (by simp [rank]))
      | _ => exact lt_trans_of_rank_ne h₁ h₂ (.inl (by simp [rank]))
  | .function i o, t, u, h₁, h₂ => by
      cases t with
      | function j r =>
          cases u with
          | function k q =>
              exact then_lt_trans (eq_of_compare _ _) (lt_trans i j k) (lt_trans o r q) h₁ h₂
          | _ => exact lt_trans_of_rank_ne h₁ h₂ (.inr (by simp [rank]))
      | _ => exact lt_trans_of_rank_ne h₁ h₂ (.inl (by simp [rank]))
  | .operation i o, t, u, h₁, h₂ => by
      cases t with
      | operation j r =>
          cases u with
          | operation k q =>
              exact then_lt_trans (eq_of_compare _ _) (lt_trans i j k) (lt_trans o r q) h₁ h₂
          | _ => exact lt_trans_of_rank_ne h₁ h₂ (.inr (by simp [rank]))
      | _ => exact lt_trans_of_rank_ne h₁ h₂ (.inl (by simp [rank]))
  | .userDefined m, t, u, h₁, h₂ => by
      cases t with
      | userDefined n =>
          cases u with
          | userDefined l => exact (comparesTotally QualifiedName).trans m n l h₁ h₂
          | _ => exact lt_trans_of_rank_ne h₁ h₂ (.inr (by simp [rank]))
      | _ => exact lt_trans_of_rank_ne h₁ h₂ (.inl (by simp [rank]))
  | .parameter p, t, u, h₁, h₂ => by
      cases t with
      | parameter q =>
          cases u with
          | parameter r => exact (comparesTotally TypeParameter).trans p q r h₁ h₂
          | _ => exact lt_trans_of_rank_ne h₁ h₂ (.inr (by simp [rank]))
      | _ => exact lt_trans_of_rank_ne h₁ h₂ (.inl (by simp [rank]))
  | .missing, t, u, h₁, h₂ => by
      cases t with
      | missing => cases h₁
      | _ => exact lt_trans_of_rank_ne h₁ h₂ (.inl (by simp [rank]))

theorem ltList_trans : (ss ts us : List Ty) → compareList ss ts = .lt →
    compareList ts us = .lt → compareList ss us = .lt
  | [], [], _, h₁, _ => nomatch h₁
  | _ :: _, [], _, h₁, _ => nomatch h₁
  | _, _ :: _, [], _, h₂ => nomatch h₂
  | [], _ :: _, _ :: _, _, _ => rfl
  | s :: ss, t :: ts, u :: us, h₁, h₂ =>
      then_lt_trans (eq_of_compare _ _) (lt_trans s t u) (ltList_trans ss ts us) h₁ h₂

end

instance : Std.TransOrd Ty where
  eq_swap := compare_swap _ _
  isLE_trans {s t u} h₁ h₂ := by
    rw [Ordering.isLE_iff_eq_lt_or_eq_eq] at h₁ h₂ ⊢
    obtain hst | hst := h₁
    · obtain htu | htu := h₂
      · exact .inl (lt_trans s t u hst htu)
      · exact .inl (eq_of_compare t u htu ▸ hst)
    · exact eq_of_compare s t hst ▸ h₂

end Ty

/-! ## nodes -/

instance : Std.TransOrd Variant :=
  inferInstanceAs (Std.TransCmp (compareOn Variant.rank))

instance : Std.LawfulEqOrd Variant where
  compare_self {v} := ((comparesTotally Nat).eq_iff v.rank v.rank).2 rfl
  eq_of_compare {v w} h := Variant.rank_inj.1 (((comparesTotally Nat).eq_iff v.rank w.rank).1 h)

instance : Std.TransOrd Node :=
  inferInstanceAs (Std.TransCmp (compareLex (compareOn Node.callable)
    (compareLex (compareOn Node.kind) (compareOn Node.typeArguments))))

instance : Std.LawfulEqOrd Node where
  compare_self {n} := by
    show (compare n.callable n.callable).then
      ((compare n.kind n.kind).then (compare n.typeArguments n.typeArguments)) = .eq
    simp
  eq_of_compare {m n} h := by
    obtain ⟨hcallable, hrest⟩ := Ordering.then_eq_eq.1 h
    obtain ⟨hkind, htypes⟩ := Ordering.then_eq_eq.1 hrest
    obtain ⟨callable, kind, typeArguments⟩ := m
    obtain rfl : callable = n.callable := Std.compare_eq_iff_eq.1 hcallable
    obtain rfl : kind = n.kind := Std.compare_eq_iff_eq.1 hkind
    obtain rfl : typeArguments = n.typeArguments := Std.compare_eq_iff_eq.1 htypes
    rfl

/-! ## bindings in any order -/

namespace Substitution

variable {s : Substitution} {bindings bindings' : List (TypeParameter × Ty)}

/-- Bindings of two parameters may be put in in either order. -/
theorem insert_comm {p q : TypeParameter} (hpq : p ≠ q) (s : Substitution) (t u : Ty) :
    (s.insert p t).insert q u = (s.insert q u).insert p t := by
  refine ext_get? fun x => ?_
  simp only [get?_insert]
  by_cases hxp : x = p
  · have hxq : x ≠ q := fun hxq => hpq (hxp.symm.trans hxq)
    simp [hxp, hpq]
  · simp [hxp]

/-- Bindings of distinct parameters may be put in in any order. -/
theorem ofList_perm (h : bindings.Perm bindings') (hdistinct : (bindings.map (·.1)).Nodup) :
    ofList bindings = ofList bindings' := by
  refine h.foldl_eq' (fun b hb d hd s => ?_) ∅
  by_cases hbd : b.1 = d.1
  · rw [List.inj_on_of_nodup_map hdistinct hb hd hbd]
  · exact insert_comm (fun hdb => hbd hdb) s b.2 d.2

/-- A new binding is listed beside the others. -/
theorem perm_insertEntry {p : TypeParameter} {es : List (TypeParameter × Ty)}
    (h : p ∉ es.map (·.1)) (t : Ty) : (insertEntry p t es).Perm ((p, t) :: es) := by
  induction es with
  | nil => exact .refl _
  | cons e es ih =>
      have ⟨hne, hrest⟩ : p ≠ e.1 ∧ p ∉ es.map (·.1) := by simpa using h
      rw [insertEntry]
      cases hc : compare p e.1 with
      | lt => exact .refl _
      | eq => exact absurd (Std.LawfulEqOrd.eq_of_compare hc) hne
      | gt => exact ((ih hrest).cons e).trans (.swap _ _ _)

/-- Bindings of distinct parameters are all listed. -/
theorem perm_entries_ofList (h : (bindings.map (·.1)).Nodup) :
    (ofList bindings).entries.Perm bindings := by
  induction bindings using List.reverseRecOn with
  | nil => exact .refl _
  | append_singleton bindings b ih =>
      rw [List.map_append, List.nodup_append] at h
      obtain ⟨hbindings, -, hdisjoint⟩ := h
      have hnew : b.1 ∉ (ofList bindings).entries.map (·.1) := by
        rw [((ih hbindings).map _).mem_iff]
        exact fun hb => hdisjoint b.1 hb b.1 (by simp) rfl
      rw [ofList_concat]
      have hlast := (perm_insertEntry hnew b.2).trans ((ih hbindings).cons b)
      exact hlast.trans (List.perm_append_singleton b bindings).symm

end Substitution

/-- An edge that is there is not stored a second time. -/
theorem CallGraph.addDependency_of_mem {g : CallGraph} {e : Edge} (h : e ∈ g.edges) :
    g.addDependency e = (false, g) := by
  have ⟨hcaller, hcallee⟩ := g.ends_mem e h
  simp [addDependency, addNode_of_mem hcaller, addNode_of_mem hcallee, h]

/-- The comparisons of types, type parameters, qualified names and nodes are
those of total orders.  Two substitutions that were made of the same bindings of
distinct parameters, put in in any two orders, are equal and list these bindings
in one and the same order, by increasing parameter; and an edge with the one is
an edge with the other, so it is not stored twice. -/
theorem orders_total :
    ComparesTotally Ty ∧ ComparesTotally TypeParameter ∧ ComparesTotally QualifiedName ∧
    ComparesTotally Node ∧
    ∀ bindings bindings' : List (TypeParameter × Ty), bindings.Perm bindings' →
      (bindings.map (·.1)).Nodup →
        let s := Substitution.ofList bindings
        let s' := Substitution.ofList bindings'
        s = s' ∧ s.entries = s'.entries ∧ s.entries.Perm bindings ∧
        s.keys.Pairwise (fun p q => compare p q = .lt) ∧
        ∀ (g : CallGraph) (caller callee : Node),
          let stored := (g.addDependency ⟨caller, callee, s⟩).2
          stored.addDependency ⟨caller, callee, s'⟩ = (false, stored) := by
  refine ⟨comparesTotally Ty, comparesTotally TypeParameter, comparesTotally QualifiedName,
    comparesTotally Node, fun bindings bindings' hperm hdistinct => ?_⟩
  intro s s'
  have heq : s = s' := Substitution.ofList_perm hperm hdistinct
  have hsorted : s.keys.Pairwise (fun p q => compare p q = .lt) :=
    List.pairwise_map.2 s.sorted
  refine ⟨heq, congrArg Substitution.entries heq, Substitution.perm_entries_ofList hdistinct,
    hsorted, fun g caller callee => ?_⟩
  rw [← heq]
  exact CallGraph.addDependency_of_mem (CallGraph.mem_edges_addDependency.2 (.inr rfl))

/-- Two bindings that are put in in either order are listed in one order. -/
theorem orders_total_two_bindings :
    let t : TypeParameter := ⟨⟨"Test", "F"⟩, "T"⟩
    let u : TypeParameter := ⟨⟨"Test", "F"⟩, "U"⟩
    let bindings : List (TypeParameter × Ty) := [(t, .parameter u), (u, .primitive .int)]
    bindings.Perm bindings.reverse ∧ (bindings.map (·.1)).Nodup ∧
    Substitution.ofList bindings.reverse = Substitution.ofList bindings ∧
    (Substitution.ofList bindings.reverse).entries = bindings := by
  intro t u bindings
  have hperm : bindings.Perm bindings.reverse := bindings.reverse_perm.symm
  have hdistinct : (bindings.map (·.1)).Nodup := by decide
  have hequal := orders_total.2.2.2.2 bindings bindings.reverse hperm hdistinct
  refine ⟨hperm, hdistinct, hequal.1.symm, ?_⟩
  rw [← hequal.2.1]
  decide +kernel

end CallGraphs
