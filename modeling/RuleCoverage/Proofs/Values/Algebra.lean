import RuleCoverage.Proofs.Interval.CanonicalForm

/-!
# Sets of numbers as a Boolean algebra

A complement is what remains of the line when one interval after another is taken away, an overlap
is made of the overlaps of each interval with each other one, and both are brought into canonical
form again.  What these operations do to members is known (`IntervalSet.mem_complement`,
`IntervalSet.mem_inter`, `IntervalSet.mem_union`), and sets with the same members are stored alike.
So every law that holds of members holds of the stored forms.

## What is here

* `SetAlgebra` — the operations of a type of sets, with `SetAlgebra.IsExact`, which says that they
  do to members what they are named for, and `SetAlgebra.IsBoolean`, the laws as equations.
* `SetAlgebra.IsExact.isBoolean` — the laws follow where sets with the same members are equal.
* `NumericValues.isExact_and_isBoolean` — both hold of unions of intervals and of sets of numbers
  with or without the missing value.
-/

set_option autoImplicit false

namespace RuleCoverage

/-! ## Types of sets -/

/-- The operations on a type of sets and the questions that are asked about its sets. -/
structure SetAlgebra (σ : Type) where
  union : σ → σ → σ
  inter : σ → σ → σ
  complement : σ → σ
  full : σ
  subset : σ → σ → Bool
  isEmpty : σ → Bool

namespace SetAlgebra

variable {σ ν : Type} {A : SetAlgebra σ} {Mem : σ → ν → Prop}

/-- The operations do to members what they are named for, and the questions are answered as the
members say. -/
structure IsExact (A : SetAlgebra σ) (Mem : σ → ν → Prop) : Prop where
  mem_union : ∀ s t v, Mem (A.union s t) v ↔ Mem s v ∨ Mem t v
  mem_inter : ∀ s t v, Mem (A.inter s t) v ↔ Mem s v ∧ Mem t v
  mem_complement : ∀ s v, Mem (A.complement s) v ↔ ¬ Mem s v
  mem_full : ∀ v, Mem A.full v
  subset_iff : ∀ s t, A.subset s t = true ↔ ∀ v, Mem s v → Mem t v
  isEmpty_iff : ∀ s, A.isEmpty s = true ↔ ∀ v, ¬ Mem s v

/-- The laws of a Boolean algebra, as equations between the sets as they are stored. -/
structure IsBoolean [BEq σ] (A : SetAlgebra σ) : Prop where
  complement_complement : ∀ s, (A.complement (A.complement s) == s) = true
  complement_union : ∀ s t,
    (A.complement (A.union s t) == A.inter (A.complement s) (A.complement t)) = true
  complement_inter : ∀ s t,
    (A.complement (A.inter s t) == A.union (A.complement s) (A.complement t)) = true
  inter_union : ∀ s t u,
    (A.inter s (A.union t u) == A.union (A.inter s t) (A.inter s u)) = true
  union_inter : ∀ s t u,
    (A.union s (A.inter t u) == A.inter (A.union s t) (A.union s u)) = true
  union_complement : ∀ s, (A.union s (A.complement s) == A.full) = true
  isEmpty_inter_complement : ∀ s, A.isEmpty (A.inter s (A.complement s)) = true

/-- **Exact operations obey the laws of a Boolean algebra** where sets with the same members are
equal. -/
theorem IsExact.isBoolean [BEq σ] (h : A.IsExact Mem)
    (hbeq : ∀ s t, (∀ v, Mem s v ↔ Mem t v) → (s == t) = true) : A.IsBoolean where
  complement_complement s := hbeq _ _ fun v ↦ by
    rw [h.mem_complement, h.mem_complement, not_not]
  complement_union s t := hbeq _ _ fun v ↦ by
    rw [h.mem_complement, h.mem_union, h.mem_inter, h.mem_complement, h.mem_complement, not_or]
  complement_inter s t := hbeq _ _ fun v ↦ by
    rw [h.mem_complement, h.mem_inter, h.mem_union, h.mem_complement, h.mem_complement, not_and_or]
  inter_union s t u := hbeq _ _ fun v ↦ by
    simp only [h.mem_inter, h.mem_union, and_or_left]
  union_inter s t u := hbeq _ _ fun v ↦ by
    simp only [h.mem_inter, h.mem_union, or_and_left]
  union_complement s := hbeq _ _ fun v ↦ by
    rw [h.mem_union, h.mem_complement]
    exact iff_of_true (Classical.em _) (h.mem_full v)
  isEmpty_inter_complement s := by
    rw [h.isEmpty_iff]
    intro v hv
    rw [h.mem_inter, h.mem_complement] at hv
    exact hv.2 hv.1

end SetAlgebra

/-! ## Unions of intervals -/

/-- The bounds are equal numbers, and they belong to both intervals or to neither. -/
def Interval.SameBounds (a b : Interval) : Prop :=
  (a.low.key = b.low.key ∧ a.high.key = b.high.key) ∧
    a.lowIncluded = b.lowIncluded ∧ a.highIncluded = b.highIncluded

namespace IntervalSet

/-- Unions of intervals as a type of sets. -/
def algebra : SetAlgebra IntervalSet := ⟨union, inter, complement, full, subset, isEmpty⟩

theorem isExact_algebra : algebra.IsExact Mem where
  mem_union := mem_union
  mem_inter := mem_inter
  mem_complement := mem_complement
  mem_full := mem_full
  subset_iff := subset_iff
  isEmpty_iff := isEmpty_iff

theorem isBoolean_algebra : algebra.IsBoolean :=
  isExact_algebra.isBoolean fun s t ↦ (beq_iff_mem s t).2

/-- Sets are equal when they are made of the same intervals. -/
theorem beq_iff_sameBounds (s t : IntervalSet) :
    (s == t) = true ↔ List.Forall₂ Interval.SameBounds s.intervals t.intervals := by
  have hbounds : Interval.SameBounds = fun a b ↦ (a == b) = true := by
    funext a b
    exact propext Interval.beq_iff_bounds.symm
  rw [hbounds]
  refine ⟨forall₂_of_beq, fun h ↦ ?_⟩
  show (s.intervals == t.intervals) = true
  generalize s.intervals = as at h ⊢
  generalize t.intervals = bs at h ⊢
  induction h with
  | nil => rfl
  | cons hab _ ih => rw [List.cons_beq_cons, hab, ih, Bool.and_self]

end IntervalSet

/-! ## Sets of numbers and the missing value -/

namespace NumericValues

/-- Sets of numbers, with or without the missing value, as a type of sets. -/
def algebra : SetAlgebra NumericValues := ⟨union, inter, complement, full, subset, isEmpty⟩

theorem subset_iff (a b : NumericValues) : a.subset b = true ↔ ∀ v, a.Mem v → b.Mem v := by
  rw [subset, isEmpty_iff]
  simp only [mem_inter, mem_complement, not_and, not_not]

theorem isExact_algebra : algebra.IsExact Mem where
  mem_union := mem_union
  mem_inter := mem_inter
  mem_complement := mem_complement
  mem_full := mem_full
  subset_iff := subset_iff
  isEmpty_iff := isEmpty_iff

theorem isBoolean_algebra : algebra.IsBoolean :=
  isExact_algebra.isBoolean fun a b ↦ (beq_iff a b).2

/-- **Sets of numbers are an exact Boolean algebra.**  The operations on unions of intervals are
exact on the points of the extended line, for doubles just those that `contains` finds, and the laws
of a Boolean algebra hold of the stored intervals.  So it is with the missing value as one more
point. -/
theorem isExact_and_isBoolean :
    ((∀ (s : IntervalSet) (d : Double), s.contains d = true ↔ s.Mem d.toEReal) ∧
      (∀ s t : IntervalSet, (s == t) = true ↔
        List.Forall₂ Interval.SameBounds s.intervals t.intervals) ∧
      IntervalSet.algebra.IsExact IntervalSet.Mem ∧ IntervalSet.algebra.IsBoolean) ∧
    (∀ a b : NumericValues, (a == b) = true ↔
      (a.intervals == b.intervals) = true ∧ a.null = b.null) ∧
    algebra.IsExact Mem ∧ algebra.IsBoolean := by
  refine ⟨⟨IntervalSet.contains_iff_mem, IntervalSet.beq_iff_sameBounds,
    IntervalSet.isExact_algebra, IntervalSet.isBoolean_algebra⟩, fun a b ↦ ?_,
    isExact_algebra, isBoolean_algebra⟩
  show (a.intervals == b.intervals && a.null == b.null) = true ↔ _
  simp only [Bool.and_eq_true, beq_iff_eq (α := Bool)]

end NumericValues

end RuleCoverage
