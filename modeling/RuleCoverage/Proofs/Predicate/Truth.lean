import RuleCoverage.NormalForm.Interpretation

/-!
# The truth of a predicate

What a predicate says is settled by its *atoms*: the parts that are neither constants nor joined by
and, or and not.  `Predicate.IsTrue truth p` is the truth of `p` when `truth` says which atoms are
true, and `Predicate.AllAtoms P p` says that all atoms of `p` have the property `P`.

* `Predicate.isTrue_conjunction`, `Predicate.isTrue_disjunction` — the truth of a list of
  conditions.
* `Predicate.allAtoms_iff` — the atoms are those that `Predicate.atoms` lists.
-/

set_option autoImplicit false

namespace RuleCoverage

namespace Predicate

/-- Neither a constant nor joined of other predicates. -/
def IsAtom : Predicate → Prop
  | .always | .never | .and _ _ | .or _ _ | .not _ => False
  | _ => True

/-- All atoms have a property. -/
def AllAtoms (P : Predicate → Prop) : Predicate → Prop
  | .always | .never => True
  | .and a b | .or a b => AllAtoms P a ∧ AllAtoms P b
  | .not a => AllAtoms P a
  | atom => P atom

/-- The truth of a predicate, given that of its atoms. -/
def IsTrue (truth : Predicate → Prop) : Predicate → Prop
  | .always => True
  | .never => False
  | .and a b => IsTrue truth a ∧ IsTrue truth b
  | .or a b => IsTrue truth a ∨ IsTrue truth b
  | .not a => ¬ IsTrue truth a
  | atom => truth atom

variable {P Q truth truth' : Predicate → Prop} {p : Predicate}

/-- Only `never` equals `never`. -/
theorem eq_never_of_beq (h : (p == .never) = true) : p = .never := by
  change beq p .never = true at h
  cases p <;> first | rfl | cases h

/-- Only `always` equals `always`. -/
theorem eq_always_of_beq (h : (p == .always) = true) : p = .always := by
  change beq p .always = true at h
  cases p <;> first | rfl | cases h

theorem IsAtom.allAtoms_iff (h : p.IsAtom) : p.AllAtoms P ↔ P p := by
  cases p <;> first | exact Iff.rfl | exact h.elim

theorem IsAtom.isTrue_iff (h : p.IsAtom) : p.IsTrue truth ↔ truth p := by
  cases p <;> first | exact Iff.rfl | exact h.elim

theorem allAtoms_iff (p : Predicate) : p.AllAtoms P ↔ ∀ a ∈ p.atoms, a.IsAtom → P a := by
  induction p with
  | and a b iha ihb | or a b iha ihb =>
    simp only [AllAtoms, iha, ihb, atoms, List.mem_append, or_imp, forall_and]
  | not a ih => exact ih
  | always => simp [AllAtoms, atoms, IsAtom]
  | never => simp [AllAtoms, atoms, IsAtom]
  | _ => simp [AllAtoms, atoms, IsAtom]

theorem AllAtoms.imp (h : ∀ a, P a → Q a) : p.AllAtoms P → p.AllAtoms Q := by
  rw [allAtoms_iff, allAtoms_iff]
  exact fun hp a ha hatom ↦ h a (hp a ha hatom)

/-- A predicate depends on the truth of its atoms only. -/
theorem isTrue_congr (h : p.AllAtoms fun a ↦ (truth a ↔ truth' a)) :
    p.IsTrue truth ↔ p.IsTrue truth' := by
  induction p with
  | and a b iha ihb => exact and_congr (iha h.1) (ihb h.2)
  | or a b iha ihb => exact or_congr (iha h.1) (ihb h.2)
  | not a ih => exact not_congr (ih h)
  | always | never => exact Iff.rfl
  | _ => exact h

/-! ## Lists of conditions -/

theorem isTrue_foldl_and (p : Predicate) (ps : List Predicate) :
    (ps.foldl .and p).IsTrue truth ↔ p.IsTrue truth ∧ ∀ q ∈ ps, q.IsTrue truth := by
  induction ps generalizing p with
  | nil => simp
  | cons q ps ih => rw [List.foldl_cons, ih, IsTrue, List.forall_mem_cons, and_assoc]

theorem isTrue_foldl_or (p : Predicate) (ps : List Predicate) :
    (ps.foldl .or p).IsTrue truth ↔ p.IsTrue truth ∨ ∃ q ∈ ps, q.IsTrue truth := by
  induction ps generalizing p with
  | nil => simp
  | cons q ps ih =>
    simp only [List.foldl_cons, ih, IsTrue, List.mem_cons, exists_eq_or_imp, or_assoc]

theorem isTrue_conjunction (ps : List Predicate) :
    (conjunction ps).IsTrue truth ↔ ∀ p ∈ ps, p.IsTrue truth := by
  cases ps with
  | nil => simp [conjunction, IsTrue]
  | cons p ps => rw [conjunction, isTrue_foldl_and, List.forall_mem_cons]

theorem isTrue_disjunction (ps : List Predicate) :
    (disjunction ps).IsTrue truth ↔ ∃ p ∈ ps, p.IsTrue truth := by
  cases ps with
  | nil => simp [disjunction, IsTrue]
  | cons p ps => simp only [disjunction, isTrue_foldl_or, List.mem_cons, exists_eq_or_imp]

/-- Joining conditions adds no atoms. -/
theorem allAtoms_foldl {join : Predicate → Predicate → Predicate}
    (hjoin : ∀ a b, (join a b).AllAtoms P ↔ a.AllAtoms P ∧ b.AllAtoms P) (p : Predicate)
    (ps : List Predicate) :
    (ps.foldl join p).AllAtoms P ↔ p.AllAtoms P ∧ ∀ q ∈ ps, q.AllAtoms P := by
  induction ps generalizing p with
  | nil => simp
  | cons q ps ih => rw [List.foldl_cons, ih, hjoin, List.forall_mem_cons, and_assoc]

theorem allAtoms_conjunction (ps : List Predicate) :
    (conjunction ps).AllAtoms P ↔ ∀ p ∈ ps, p.AllAtoms P := by
  cases ps with
  | nil => simp [conjunction, AllAtoms]
  | cons p ps =>
    rw [conjunction, allAtoms_foldl (fun _ _ ↦ Iff.rfl), List.forall_mem_cons]

theorem allAtoms_disjunction (ps : List Predicate) :
    (disjunction ps).AllAtoms P ↔ ∀ p ∈ ps, p.AllAtoms P := by
  cases ps with
  | nil => simp [disjunction, AllAtoms]
  | cons p ps =>
    rw [disjunction, allAtoms_foldl (fun _ _ ↦ Iff.rfl), List.forall_mem_cons]

/-- Joining conditions keeps their atoms. -/
theorem mem_atoms_foldl {join : Predicate → Predicate → Predicate}
    (hjoin : ∀ a b, (join a b).atoms = a.atoms ++ b.atoms) {p q atom : Predicate}
    {ps : List Predicate} (hq : q ∈ p :: ps) (h : atom ∈ q.atoms) :
    atom ∈ (ps.foldl join p).atoms := by
  induction ps generalizing p q with
  | nil =>
    rw [List.mem_singleton.1 hq] at h
    exact h
  | cons p' ps ih =>
    rcases List.mem_cons.1 hq with rfl | hq
    · refine ih (q := join q p') List.mem_cons_self ?_
      rw [hjoin]
      exact List.mem_append_left _ h
    rcases List.mem_cons.1 hq with rfl | hq
    · refine ih (q := join p q) List.mem_cons_self ?_
      rw [hjoin]
      exact List.mem_append_right _ h
    · exact ih (List.mem_cons_of_mem _ hq) h

theorem mem_atoms_conjunction {q atom : Predicate} {ps : List Predicate} (hq : q ∈ ps)
    (h : atom ∈ q.atoms) : atom ∈ (conjunction ps).atoms := by
  cases ps with
  | nil => cases hq
  | cons p ps => exact mem_atoms_foldl (fun _ _ ↦ rfl) hq h

theorem mem_atoms_disjunction {q atom : Predicate} {ps : List Predicate} (hq : q ∈ ps)
    (h : atom ∈ q.atoms) : atom ∈ (disjunction ps).atoms := by
  cases ps with
  | nil => cases hq
  | cons p ps => exact mem_atoms_foldl (fun _ _ ↦ rfl) hq h

end Predicate

end RuleCoverage
