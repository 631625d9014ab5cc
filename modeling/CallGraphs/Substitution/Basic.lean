import CallGraphs.Ty.Order

/-!
# CallGraphs.Substitution.Basic

Substitutions: finite maps from type parameters to types, kept as a list of
bindings in strictly increasing order of the parameters.  A map therefore
has one representation, and its bindings are listed in the order of its
keys.

* `get?_insert` — what an insertion does to the view `get?`;
* `ext_get?` — two substitutions with the same view are equal.
-/

namespace CallGraphs

/-- One binding comes before another when its parameter does. -/
def Substitution.Before (a b : TypeParameter × Ty) : Prop := compare a.1 b.1 = .lt

/-- A finite map from type parameters to types. -/
structure Substitution where
  entries : List (TypeParameter × Ty)
  sorted : entries.Pairwise Substitution.Before
  deriving DecidableEq

namespace Substitution

/-! ## the order on bindings -/

theorem Before.trans {a b c : TypeParameter × Ty} (h₁ : Before a b) (h₂ : Before b c) :
    Before a c :=
  @Std.TransCmp.lt_trans TypeParameter compare _ _ _ _ h₁ h₂

theorem Before.ne {a b : TypeParameter × Ty} (h : Before a b) : a.1 ≠ b.1 := by
  intro e
  simp [Before, e] at h

/-! ## the view -/

/-- The type that a list of bindings gives a parameter. -/
def lookupEntry (p : TypeParameter) : List (TypeParameter × Ty) → Option Ty
  | [] => none
  | (q, t) :: rest => if p = q then some t else lookupEntry p rest

/-- The type bound to a parameter, if it is bound. -/
def get? (s : Substitution) (p : TypeParameter) : Option Ty := lookupEntry p s.entries

/-- The bound parameters, in increasing order. -/
def keys (s : Substitution) : List TypeParameter := s.entries.map (·.1)

/-- Whether nothing is bound. -/
def isEmpty (s : Substitution) : Bool := s.entries.isEmpty

/-- The substitution that binds nothing. -/
def empty : Substitution := ⟨[], .nil⟩

instance : EmptyCollection Substitution := ⟨empty⟩

instance : Inhabited Substitution := ⟨∅⟩

@[simp] theorem get?_empty (p : TypeParameter) : (∅ : Substitution).get? p = none := rfl

@[simp] theorem isEmpty_empty : (∅ : Substitution).isEmpty = true := rfl

theorem isEmpty_iff {s : Substitution} : s.isEmpty = true ↔ s = ∅ := by
  obtain ⟨entries, sorted⟩ := s
  cases entries <;> simp [isEmpty, EmptyCollection.emptyCollection, empty]

/-- A key that comes before every listed binding is not bound. -/
theorem lookupEntry_eq_none {e : TypeParameter × Ty} {es : List (TypeParameter × Ty)}
    (h : ∀ d ∈ es, Before e d) : lookupEntry e.1 es = none := by
  induction es with
  | nil => rfl
  | cons d ds ih =>
      have hne : e.1 ≠ d.1 := (h d (by simp)).ne
      simp [lookupEntry, hne, ih fun x hx => h x (by simp [hx])]

/-- The least key of a sorted list is bound by every list with the same view. -/
theorem not_before_of_lookupEntry {e d : TypeParameter × Ty}
    {es ds : List (TypeParameter × Ty)} (hd : ∀ x ∈ ds, Before d x)
    (h : ∀ p, lookupEntry p (e :: es) = lookupEntry p (d :: ds)) : ¬ Before e d := by
  intro hed
  have hnone : lookupEntry e.1 (d :: ds) = none :=
    lookupEntry_eq_none fun x hx => by
      rcases List.mem_cons.1 hx with rfl | hx
      · exact hed
      · exact hed.trans (hd x hx)
  have := h e.1
  rw [hnone] at this
  simp [lookupEntry] at this

/-- Two sorted lists of bindings with the same view are equal. -/
theorem eq_of_lookupEntry {es ds : List (TypeParameter × Ty)} (hs : es.Pairwise Before)
    (ht : ds.Pairwise Before) (h : ∀ p, lookupEntry p es = lookupEntry p ds) : es = ds := by
  induction es generalizing ds with
  | nil =>
      cases ds with
      | nil => rfl
      | cons d ds => have := h d.1; simp [lookupEntry] at this
  | cons e es ih =>
      cases ds with
      | nil => have := h e.1; simp [lookupEntry] at this
      | cons d ds =>
          have ⟨hes, hs'⟩ := List.pairwise_cons.1 hs
          have ⟨hds, ht'⟩ := List.pairwise_cons.1 ht
          have hkey : e.1 = d.1 := by
            cases hc : compare e.1 d.1 with
            | eq => exact Std.LawfulEqOrd.eq_of_compare hc
            | lt => exact absurd hc (not_before_of_lookupEntry hds h)
            | gt =>
                exact absurd (Std.OrientedCmp.gt_iff_lt.1 hc)
                  (not_before_of_lookupEntry hes fun p => (h p).symm)
          have hval : e.2 = d.2 := by
            have := h e.1
            simpa [lookupEntry, hkey] using this
          obtain rfl : e = d := Prod.ext hkey hval
          congr 1
          refine ih hs' ht' fun p => ?_
          by_cases hp : p = e.1
          · rw [hp, lookupEntry_eq_none hes, lookupEntry_eq_none hds]
          · have := h p
            simpa [lookupEntry, hp] using this

/-- Two substitutions that bind the same parameters to the same types are
equal. -/
theorem ext_get? {s t : Substitution} (h : ∀ p, s.get? p = t.get? p) : s = t := by
  obtain ⟨es, hs⟩ := s
  obtain ⟨ds, ht⟩ := t
  obtain rfl : es = ds := eq_of_lookupEntry hs ht h
  rfl

/-! ## insertion -/

/-- Put a binding at its place, replacing an older one of the same
parameter. -/
def insertEntry (p : TypeParameter) (t : Ty) :
    List (TypeParameter × Ty) → List (TypeParameter × Ty)
  | [] => [(p, t)]
  | (q, u) :: rest =>
    match compare p q with
    | .lt => (p, t) :: (q, u) :: rest
    | .eq => (p, t) :: rest
    | .gt => (q, u) :: insertEntry p t rest

theorem mem_insertEntry {p : TypeParameter} {t : Ty} {es : List (TypeParameter × Ty)}
    {e : TypeParameter × Ty} (h : e ∈ insertEntry p t es) : e = (p, t) ∨ e ∈ es := by
  induction es with
  | nil => simpa [insertEntry] using h
  | cons d ds ih => grind [insertEntry]

theorem sorted_insertEntry (p : TypeParameter) (t : Ty) {es : List (TypeParameter × Ty)}
    (h : es.Pairwise Before) : (insertEntry p t es).Pairwise Before := by
  induction es with
  | nil => simp [insertEntry]
  | cons d ds ih =>
      have ⟨hd, hds⟩ := List.pairwise_cons.1 h
      rw [insertEntry]
      cases hc : compare p d.1 with
      | lt =>
          have hpd : Before (p, t) d := hc
          refine List.pairwise_cons.2 ⟨fun e he => ?_, h⟩
          rcases List.mem_cons.1 he with rfl | he
          · exact hpd
          · exact hpd.trans (hd e he)
      | eq =>
          obtain rfl : p = d.1 := Std.LawfulEqOrd.eq_of_compare hc
          exact List.pairwise_cons.2 ⟨hd, hds⟩
      | gt =>
          refine List.pairwise_cons.2 ⟨fun e he => ?_, ih hds⟩
          rcases mem_insertEntry he with rfl | he
          · exact Std.OrientedCmp.gt_iff_lt.1 hc
          · exact hd e he

theorem lookupEntry_insertEntry (p q : TypeParameter) (t : Ty)
    (es : List (TypeParameter × Ty)) :
    lookupEntry q (insertEntry p t es) = if q = p then some t else lookupEntry q es := by
  induction es with
  | nil => simp [insertEntry, lookupEntry]
  | cons d ds ih =>
      rw [insertEntry]
      cases hc : compare p d.1 with
      | lt => simp [lookupEntry]
      | eq =>
          obtain rfl : p = d.1 := Std.LawfulEqOrd.eq_of_compare hc
          by_cases hq : q = d.1 <;> simp [lookupEntry, hq]
      | gt =>
          have hne : p ≠ d.1 := fun e => by simp [e] at hc
          by_cases hq : q = p
          · subst hq
            simp [lookupEntry, hne, ih]
          · simp [lookupEntry, hq, ih]

/-- Bind a parameter to a type, replacing an older binding of it. -/
def insert (s : Substitution) (p : TypeParameter) (t : Ty) : Substitution :=
  ⟨insertEntry p t s.entries, sorted_insertEntry p t s.sorted⟩

/-- An insertion changes the view at the inserted parameter only. -/
theorem get?_insert (s : Substitution) (p q : TypeParameter) (t : Ty) :
    (s.insert p t).get? q = if q = p then some t else s.get? q :=
  lookupEntry_insertEntry p q t s.entries

/-- The substitution of a list of bindings; of two bindings of one parameter
the later one counts. -/
def ofList (bindings : List (TypeParameter × Ty)) : Substitution :=
  bindings.foldl (fun s binding => s.insert binding.1 binding.2) ∅

/-! ## bound types -/

/-- Replace every bound type by its image under `f`. -/
def mapTypes (f : Ty → Ty) (s : Substitution) : Substitution where
  entries := s.entries.map fun e => (e.1, f e.2)
  sorted := by
    rw [List.pairwise_map]
    exact s.sorted.imp fun h => h

@[simp] theorem get?_mapTypes (f : Ty → Ty) (s : Substitution) (p : TypeParameter) :
    (s.mapTypes f).get? p = (s.get? p).map f := by
  obtain ⟨es, sorted⟩ := s
  simp only [mapTypes, get?]
  clear sorted
  induction es with
  | nil => rfl
  | cons e es ih => by_cases h : p = e.1 <;> simp [lookupEntry, h, ih]

@[simp] theorem keys_mapTypes (f : Ty → Ty) (s : Substitution) : (s.mapTypes f).keys = s.keys := by
  simp [mapTypes, keys]

end Substitution

end CallGraphs
