import CallGraphs.Proofs.Resolution
import Mathlib.Data.List.Forall2
import Mathlib.Data.List.Nodup

/-!
# CallGraphs.Proofs.Declarations

What a program declares, apart from the order in which it does.  Two programs
declare the same if names are looked up with the same signatures and the same
specializations stand under them.

* `find?_eq_some_iff` — look-ups among distinct names;
* `Permuted.declaresSame` — reordering namespaces, callables and
  specializations does not change what a program with distinct names declares.
-/

namespace CallGraphs

/-! ## specializations -/

namespace Program

/-- The specializations of a program, each with its callable, in program
order. -/
def specializations (program : Program) : List (Callable × Specialization) :=
  program.callables.flatMap fun c => c.specializations.map fun s => (c, s)

/-- The names of the callables are distinct. -/
def Distinct (program : Program) : Prop := (program.callables.map (·.name)).Nodup

variable {program program' : Program} {name : QualifiedName} {c d : Callable}
  {s : Specialization}

theorem mem_specializations :
    (c, s) ∈ program.specializations ↔ c ∈ program.callables ∧ s ∈ c.specializations := by
  simp [specializations]

/-- Among distinct names, what is found under a name is the callable of that
name. -/
theorem find?_eq_some_iff (h : program.Distinct) :
    program.find? name = some c ↔ c ∈ program.callables ∧ c.name = name := by
  refine ⟨fun hc => ⟨mem_of_find? hc, name_of_find? hc⟩, ?_⟩
  rintro ⟨hmem, rfl⟩
  cases hd : program.find? c.name with
  | none =>
      rw [find?, List.findRev?_eq_find?_reverse, List.find?_eq_none] at hd
      simpa using hd c (List.mem_reverse.2 hmem)
  | some d =>
      rw [List.inj_on_of_nodup_map h (mem_of_find? hd) hmem (name_of_find? hd)]

/-- Two programs declare the same, in whatever order: names are looked up
with the same signatures, and the same specializations stand under them. -/
structure DeclaresSame (program program' : Program) : Prop where
  find : ∀ name, (program'.find? name).map Callable.signature =
    (program.find? name).map Callable.signature
  specializations : ∀ signature s,
    (∃ c, c.signature = signature ∧ (c, s) ∈ program.specializations) ↔
      ∃ d, d.signature = signature ∧ (d, s) ∈ program'.specializations

theorem DeclaresSame.symm (h : program.DeclaresSame program') : program'.DeclaresSame program :=
  ⟨fun name => (h.find name).symm, fun signature s => (h.specializations signature s).symm⟩

end Program

/-! ## reordering -/

/-- A callable with its specializations in another order. -/
structure Callable.Permuted (c d : Callable) : Prop where
  name : d.name = c.name
  kind : d.kind = c.kind
  typeParameters : d.typeParameters = c.typeParameters
  specializations : c.specializations.Perm d.specializations

/-- A namespace with its callables, and the specializations of these, in
another order. -/
def Namespace.Permuted (a b : Namespace) : Prop :=
  b.name = a.name ∧ ∃ cs, a.callables.Perm cs ∧ List.Forall₂ Callable.Permuted cs b.callables

/-- A program with its namespaces, the callables of these and the
specializations of those in another order. -/
def Program.Permuted (program program' : Program) : Prop :=
  ∃ ns, program.namespaces.Perm ns ∧ List.Forall₂ Namespace.Permuted ns program'.namespaces

/-- What stands in one of two matching lists has a match in the other one. -/
theorem exists_mem_of_forall₂ {α β : Type} {R : α → β → Prop} {xs : List α} {ys : List β}
    (h : List.Forall₂ R xs ys) {x : α} (hx : x ∈ xs) : ∃ y ∈ ys, R x y := by
  induction h with
  | nil => exact absurd hx List.not_mem_nil
  | cons hfirst _ ih =>
      obtain rfl | hx := List.mem_cons.1 hx
      · exact ⟨_, List.mem_cons_self, hfirst⟩
      · obtain ⟨y, hy, hxy⟩ := ih hx
        exact ⟨y, List.mem_cons_of_mem _ hy, hxy⟩

theorem Callable.Permuted.signature_eq {c d : Callable} (h : c.Permuted d) :
    d.signature = c.signature := by
  rw [Callable.signature, Callable.signature, h.name, h.typeParameters]

namespace Program.Permuted

variable {program program' : Program} {c d : Callable}

/-- Reordering a program reorders its callables. -/
theorem callables (h : program.Permuted program') :
    ∃ cs, program.callables.Perm cs ∧ List.Forall₂ Callable.Permuted cs program'.callables := by
  obtain ⟨ns, hperm, hall⟩ := h
  rw [Program.callables, Program.callables]
  have hflat : ∃ cs, (ns.flatMap (·.callables)).Perm cs ∧
      List.Forall₂ Callable.Permuted cs (program'.namespaces.flatMap (·.callables)) := by
    clear hperm
    generalize program'.namespaces = ns' at hall
    induction hall with
    | nil => exact ⟨[], .nil, .nil⟩
    | cons hfirst _ ih =>
        obtain ⟨-, cs, hcs, hsame⟩ := hfirst
        obtain ⟨cs', hcs', hsame'⟩ := ih
        exact ⟨cs ++ cs', hcs.append hcs', List.rel_append hsame hsame'⟩
  obtain ⟨cs, hcs, hsame⟩ := hflat
  exact ⟨cs, (hperm.flatMap_right _).trans hcs, hsame⟩

/-- Every callable is one of the reordered ones. -/
theorem exists_right (h : program.Permuted program') (hc : c ∈ program.callables) :
    ∃ d ∈ program'.callables, c.Permuted d := by
  obtain ⟨cs, hperm, hall⟩ := h.callables
  exact exists_mem_of_forall₂ hall (hperm.mem_iff.1 hc)

/-- Every reordered callable is one of the callables. -/
theorem exists_left (h : program.Permuted program') (hd : d ∈ program'.callables) :
    ∃ c ∈ program.callables, c.Permuted d := by
  obtain ⟨cs, hperm, hall⟩ := h.callables
  obtain ⟨c, hc, hsame⟩ := exists_mem_of_forall₂ hall.flip hd
  exact ⟨c, hperm.mem_iff.2 hc, hsame⟩

/-- Reordering keeps names distinct. -/
theorem distinct (h : program.Permuted program') (hdistinct : program.Distinct) :
    program'.Distinct := by
  obtain ⟨cs, hperm, hall⟩ := h.callables
  have hnames : program'.callables.map (·.name) = cs.map (·.name) := by
    clear hperm
    generalize program'.callables = cs' at hall
    induction hall with
    | nil => rfl
    | cons hfirst _ ih => rw [List.map_cons, List.map_cons, hfirst.name, ih]
  rw [Program.Distinct, hnames]
  exact ((hperm.map _).nodup_iff).1 hdistinct

/-- Reordering does not change what a program with distinct names declares. -/
theorem declaresSame (h : program.Permuted program') (hdistinct : program.Distinct) :
    program.DeclaresSame program' := by
  have hdistinct' := h.distinct hdistinct
  constructor
  case find =>
    intro name
    cases hc : program.find? name with
    | none =>
        cases hd : program'.find? name with
        | none => rfl
        | some d =>
            obtain ⟨hmem, hname⟩ := (Program.find?_eq_some_iff hdistinct').1 hd
            obtain ⟨c, hcmem, hsame⟩ := h.exists_left hmem
            have hfound := (Program.find?_eq_some_iff hdistinct).2 ⟨hcmem, hsame.name.symm.trans hname⟩
            rw [hc] at hfound
            cases hfound
    | some c =>
        obtain ⟨hmem, hname⟩ := (Program.find?_eq_some_iff hdistinct).1 hc
        obtain ⟨d, hdmem, hsame⟩ := h.exists_right hmem
        have hfound := (Program.find?_eq_some_iff hdistinct').2 ⟨hdmem, hsame.name.trans hname⟩
        rw [hfound, Option.map_some, Option.map_some, hsame.signature_eq]
  case specializations =>
    intro signature s
    constructor
    · rintro ⟨c, rfl, hmem⟩
      obtain ⟨hc, hs⟩ := Program.mem_specializations.1 hmem
      obtain ⟨d, hd, hsame⟩ := h.exists_right hc
      exact ⟨d, hsame.signature_eq,
        Program.mem_specializations.2 ⟨hd, hsame.specializations.mem_iff.1 hs⟩⟩
    · rintro ⟨d, rfl, hmem⟩
      obtain ⟨hd, hs⟩ := Program.mem_specializations.1 hmem
      obtain ⟨c, hc, hsame⟩ := h.exists_left hd
      exact ⟨c, hsame.signature_eq.symm,
        Program.mem_specializations.2 ⟨hc, hsame.specializations.mem_iff.2 hs⟩⟩

end Program.Permuted

end CallGraphs
