import RuleCoverage.Proofs.Interval.Spelling
import RuleCoverage.Proofs.Values.Counting
import RuleCoverage.Proofs.Values.Extensionality

/-!
# How many alternatives a value set has

A set of numbers is written as a disjunction of its intervals, and a finite set of discrete values
as one membership; the missing value is one more alternative.  All values but a few, none of them
missing, are written as two conditions, and these count as two alternatives as well
(`ValueSet.alternatives`).  A union has at most as many alternatives as the two sets together, and
an overlap at most twice the product of theirs.
-/

set_option autoImplicit false

namespace RuleCoverage

namespace IntervalSet

variable {s t : IntervalSet}

theorem length_joinSorted_le (last : Interval) (ivs : List Interval) :
    (joinSorted last ivs).length ≤ ivs.length + 1 := by
  induction ivs generalizing last with
  | nil => exact le_rfl
  | cons iv rest ih =>
    rw [joinSorted]
    split
    · exact (ih _).trans (Nat.le_succ _)
    · exact Nat.succ_le_succ (ih iv)

/-- Joining intervals makes them fewer. -/
theorem size_ofList_le (ivs : List Interval) : (ofList ivs).size ≤ ivs.length := by
  have hfilter := List.length_filter_le (fun iv : Interval ↦ !iv.isEmpty) ivs
  show (normalize ivs).length ≤ ivs.length
  unfold normalize
  split
  · exact Nat.zero_le _
  · rename_i iv rest heq
    have hlen := congrArg List.length heq
    rw [List.length_mergeSort, List.length_cons] at hlen
    have := length_joinSorted_le iv rest
    omega

theorem size_union_le (s t : IntervalSet) : (s.union t).size ≤ s.size + t.size := by
  have h := size_ofList_le (s.intervals ++ t.intervals)
  rwa [List.length_append] at h

theorem size_inter_le (s t : IntervalSet) : (s.inter t).size ≤ s.size * t.size := by
  refine (size_ofList_le _).trans ?_
  rw [size, size]
  induction s.intervals with
  | nil => simp
  | cons iv rest ih =>
    have := List.length_filterMap_le iv.intersect? t.intervals
    rw [List.flatMap_cons, List.length_append, List.length_cons, Nat.add_mul]
    omega

theorem size_congr (h : (s == t) = true) : s.size = t.size := (forall₂_of_beq h).length_eq

end IntervalSet

/-! ## Alternatives -/

/-- One, unless the set is empty. -/
def Distinct.parts (s : Distinct Scalar) : Nat := (!s.isEmpty).toNat

/-- One for each interval, and one for the missing value. -/
def NumericValues.alternatives (ns : NumericValues) : Nat := ns.null.toNat + ns.intervals.size

/-- One for the values, if there are any, and one for the missing value.  All values except a few
are one, and one more if the missing value is an exception as well. -/
def DiscreteValues.alternatives (d : DiscreteValues) : Nat :=
  if d.cofinite then 1 + (!d.null).toNat * d.values.parts else d.null.toNat + d.values.parts

/-- In how many parts a value set is written. -/
def ValueSet.alternatives : ValueSet → Nat
  | .numeric ns => ns.alternatives
  | .discrete d => d.alternatives

namespace Distinct

variable {s t : Distinct Scalar}

theorem parts_le_one (s : Distinct Scalar) : s.parts ≤ 1 := Bool.toNat_le _

theorem parts_of_mem {x : Scalar} (h : x ∈ s.toList) : s.parts = 1 := by
  have hne : ¬ s.isEmpty = true := fun hempty ↦ (isEmpty_iff s).1 hempty x h
  rw [parts, Bool.eq_false_iff.2 hne]
  rfl

/-- A set that is not empty has a member. -/
theorem parts_cases (s : Distinct Scalar) : s.parts = 0 ∨ s.parts = 1 ∧ ∃ x, x ∈ s.toList := by
  by_cases hempty : s.isEmpty = true
  · exact .inl (by rw [parts, hempty]; rfl)
  · rw [isEmpty_iff, not_forall_not] at hempty
    obtain ⟨x, hx⟩ := hempty
    exact .inr ⟨parts_of_mem hx, x, hx⟩

theorem parts_congr (h : (s == t) = true) : s.parts = t.parts := by
  have hsize := size_congr h
  rw [size, size] at hsize
  have hempty : s.isEmpty = t.isEmpty := by
    rw [Bool.eq_iff_iff, isEmpty, isEmpty, List.isEmpty_iff_length_eq_zero,
      List.isEmpty_iff_length_eq_zero, hsize]
  rw [parts, parts, hempty]

theorem parts_diff (s t : Distinct Scalar) : (s.diff t).parts ≤ s.parts := by
  rcases (s.diff t).parts_cases with h | ⟨h, x, hx⟩
  · exact h ▸ Nat.zero_le _
  · rw [h, parts_of_mem (mem_diff.1 hx).1]

theorem parts_inter (s t : Distinct Scalar) : (s.inter t).parts ≤ s.parts * t.parts := by
  rcases (s.inter t).parts_cases with h | ⟨h, x, hx⟩
  · exact h ▸ Nat.zero_le _
  · obtain ⟨⟨y, hy, -⟩, z, hz, -⟩ := hasKey_inter.1 ⟨x, hx, rfl⟩
    rw [h, parts_of_mem hy, parts_of_mem hz]

theorem parts_union (s t : Distinct Scalar) : (s.union t).parts ≤ s.parts + t.parts := by
  rcases (s.union t).parts_cases with h | ⟨h, x, hx⟩
  · exact h ▸ Nat.zero_le _
  · rcases mem_of_mem_union hx with hx | hx
    · rw [h, parts_of_mem hx]
      exact Nat.le_add_right 1 _
    · rw [h, parts_of_mem hx]
      exact Nat.le_add_left 1 _

end Distinct

namespace NumericValues

variable {a b : NumericValues}

theorem alternatives_pos {v : Option EReal} (h : a.Mem v) : 1 ≤ a.alternatives := by
  rw [alternatives]
  cases v with
  | none =>
    have hnull : a.null = true := h
    simp [hnull]
  | some x =>
    obtain ⟨iv, hiv, -⟩ := h
    have := List.length_pos_of_mem hiv
    rw [IntervalSet.size]
    omega

theorem alternatives_congr (h : (a == b) = true) : a.alternatives = b.alternatives := by
  change (a.intervals == b.intervals && a.null == b.null) = true at h
  rw [Bool.and_eq_true] at h
  rw [alternatives, alternatives, beq_iff_eq.1 h.2, IntervalSet.size_congr h.1]

theorem alternatives_inter (a b : NumericValues) :
    (a.inter b).alternatives ≤ a.alternatives * b.alternatives := by
  have hsize := IntervalSet.size_inter_le a.intervals b.intervals
  show (a.null && b.null).toNat + (a.intervals.inter b.intervals).size ≤ _
  rw [alternatives, alternatives]
  cases a.null <;> cases b.null <;> simp only [Bool.and_true, Bool.and_false, Bool.toNat_true,
    Bool.toNat_false, Nat.add_mul, Nat.mul_add] <;> omega

theorem alternatives_union (a b : NumericValues) :
    (a.union b).alternatives ≤ a.alternatives + b.alternatives := by
  have hsize := IntervalSet.size_union_le a.intervals b.intervals
  show (a.null || b.null).toNat + (a.intervals.union b.intervals).size ≤ _
  rw [alternatives, alternatives]
  cases a.null <;> cases b.null <;> simp only [Bool.or_true, Bool.or_false, Bool.toNat_true,
    Bool.toNat_false] <;> omega

theorem alternatives_onlyNull : onlyNull.alternatives = 1 := rfl

/-- An interval that is not empty is one alternative. -/
theorem alternatives_ofInterval {iv : Interval} (h : iv.lowCut < iv.highCut) :
    (ofInterval iv).alternatives = 1 := by
  rw [alternatives, IntervalSet.size, ofInterval,
    IntervalSet.intervals_ofList (IntervalSet.canonical_singleton h)]
  rfl

end NumericValues

namespace DiscreteValues

variable {a b : DiscreteValues}

theorem alternatives_of_cofinite (h : a.cofinite = true) :
    a.alternatives = 1 + (!a.null).toNat * a.values.parts := if_pos h

theorem alternatives_of_finite (h : a.cofinite = false) :
    a.alternatives = a.null.toNat + a.values.parts := if_neg (by simp [h])

theorem alternatives_pos {v : Option Value} (h : a.Mem (v.map Value.key?)) :
    1 ≤ a.alternatives := by
  cases hco : a.cofinite with
  | true => exact alternatives_of_cofinite hco ▸ Nat.le_add_right 1 _
  | false =>
    rw [alternatives_of_finite hco]
    rcases (mem_iff_of_not_cofinite hco v).1 h with ⟨hnull, -⟩ | ⟨s, hs, -⟩
    · simp [hnull]
    · rw [Distinct.parts_of_mem hs]
      exact Nat.le_add_left 1 _

theorem alternatives_congr (h : (a == b) = true) : a.alternatives = b.alternatives := by
  change (a.values == b.values && a.cofinite == b.cofinite && a.null == b.null) = true at h
  simp only [Bool.and_eq_true, beq_iff_eq] at h
  rw [alternatives, alternatives, h.1.2, h.2, Distinct.parts_congr h.1.1]

theorem alternatives_inter (a b : DiscreteValues) :
    (a.inter b).alternatives ≤ 2 * (a.alternatives * b.alternatives) := by
  have hinter := Distinct.parts_inter a.values b.values
  have hdiff := Distinct.parts_diff a.values b.values
  have hdiff' := Distinct.parts_diff b.values a.values
  have hunion := Distinct.parts_le_one (a.values.union b.values)
  rw [inter, alternatives, alternatives, alternatives]
  cases a.cofinite <;> cases b.cofinite <;> cases a.null <;> cases b.null <;>
    simp [Nat.add_mul, Nat.mul_add] at * <;> omega

theorem alternatives_union (a b : DiscreteValues) :
    (a.union b).alternatives ≤ a.alternatives + b.alternatives := by
  have hinter := Distinct.parts_inter a.values b.values
  have hdiff := Distinct.parts_diff a.values b.values
  have hdiff' := Distinct.parts_diff b.values a.values
  have hunion := Distinct.parts_union a.values b.values
  have hleft : a.values.parts * b.values.parts ≤ a.values.parts * 1 :=
    Nat.mul_le_mul_left _ b.values.parts_le_one
  rw [union, alternatives, alternatives, alternatives]
  cases a.cofinite <;> cases b.cofinite <;> cases a.null <;> cases b.null <;> simp at * <;> omega

end DiscreteValues

namespace ValueSet

variable {us vs : ValueSet} {v : Option Value}

theorem alternatives_pos (h : vs.Mem v) : 1 ≤ vs.alternatives := by
  cases vs with
  | numeric ns => exact NumericValues.alternatives_pos h
  | discrete d => exact DiscreteValues.alternatives_pos h

theorem alternatives_congr (h : (us == vs) = true) : us.alternatives = vs.alternatives := by
  cases us <;> cases vs
  · exact NumericValues.alternatives_congr h
  · cases h
  · cases h
  · exact DiscreteValues.alternatives_congr h

theorem alternatives_inter (us vs : ValueSet) :
    (us.inter vs).alternatives ≤ 2 * (us.alternatives * vs.alternatives) := by
  cases us <;> cases vs
  · exact (NumericValues.alternatives_inter _ _).trans (Nat.le_mul_of_pos_left _ Nat.two_pos)
  · exact Nat.zero_le _
  · exact Nat.zero_le _
  · exact DiscreteValues.alternatives_inter _ _

theorem alternatives_union (us vs : ValueSet) :
    (us.union vs).alternatives ≤ us.alternatives + vs.alternatives := by
  cases us <;> cases vs
  · exact NumericValues.alternatives_union _ _
  · exact Nat.le_add_right _ _
  · exact Nat.le_add_right _ _
  · exact DiscreteValues.alternatives_union _ _

end ValueSet

end RuleCoverage
