import RuleCoverage.Proofs.NormalForm.Inference
import RuleCoverage.Proofs.NormalForm.RoundTrip.Discrete
import RuleCoverage.Proofs.NormalForm.Vocabulary

/-!
# Constraints that are written without literals

A constraint is written with literals, unless it says no more than whether there is a value.  Then
it is written as a test for null (`NumericValues.compares_or_isNullTest`,
`DiscreteValues.compares_or_isNullTest`), which may be read as one for an attribute of another kind.
-/

set_option autoImplicit false

namespace RuleCoverage

variable {ctx : Interpretation} {r : Reading ctx} {a : String} {null : Bool}

/-- The value set says no more than whether there is a value. -/
def ValueSet.IsNullTest (vs : ValueSet) (null : Bool) : Prop :=
  ∀ v : Option Value, vs.Mem v ↔ v.isNone = null

namespace Predicate

/-- The test for whether there is a value. -/
def nullTest (a : String) (null : Bool) : Predicate :=
  if null then .isNull (.text a) else .not (.isNull (.text a))

variable {p q atom : Predicate} {ps : List Predicate} {L : Scalar → Prop}
  {values : Distinct Scalar}

theorem names_nullTest (a : String) (null : Bool) : (nullTest a null).Names a :=
  ⟨.isNull (.text a), by cases null <;> exact List.mem_cons_self, rfl⟩

theorem Concerns.compares (h : atom.Concerns a L) (hatom : atom ∈ p.atoms)
    (hls : atom.literals? ≠ none) : p.Compares a := by
  obtain ⟨vs, hvs⟩ := Option.ne_none_iff_exists'.1 hls
  exact ⟨atom, hatom, h.named, vs, hvs, (h.literals hvs).1⟩

theorem compares_disjunction (hq : q ∈ ps) (h : q.Compares a) : (disjunction ps).Compares a := by
  obtain ⟨atom, hatom, hcompares⟩ := h
  exact ⟨atom, mem_atoms_disjunction hq hatom, hcompares⟩

theorem compares_isIn (hne : ¬ values.isEmpty = true) :
    (Predicate.isIn (.text a) values).Compares a :=
  (concerns_isIn (L := fun _ ↦ True) hne fun _ _ ↦ trivial).compares (List.mem_singleton_self _)
    (Option.some_ne_none _)

theorem compares_oneOf (hne : ¬ values.isEmpty = true) : (oneOf a values).Compares a := by
  rw [oneOf]
  split
  · exact ⟨_, List.mem_singleton_self _, rfl, _, rfl, List.cons_ne_nil _ _⟩
  · exact compares_isIn (isEmpty_ofList_sorted hne)

theorem compares_noneOf (hne : ¬ values.isEmpty = true) : (noneOf a values).Compares a := by
  rw [noneOf]
  split
  · exact ⟨_, List.mem_singleton_self _, rfl, _, rfl, List.cons_ne_nil _ _⟩
  · exact compares_isIn (isEmpty_ofList_sorted hne)

end Predicate

/-! ## Numbers -/

namespace Interval

variable {iv : Interval}

/-- An interval is written with its bounds, unless it holds all numbers. -/
theorem compares_or_full (a : String) (iv : Interval) : (iv.toPredicate a).Compares a ∨
    iv.toPredicate a = .not (.isNull (.text a)) ∧ ∀ x, iv.Mem x := by
  have hbound : ∀ op x, (Predicate.compare (.text a) op (.double x)).Compares a :=
    fun op x ↦ ⟨_, List.mem_singleton_self _, rfl, _, rfl, List.cons_ne_nil _ _⟩
  rw [toPredicate]
  dsimp only
  split
  · exact .inl (hbound _ _)
  split
  · rename_i hfull
    obtain ⟨hlow, hhigh⟩ := Bool.and_eq_true_iff.1 hfull
    refine .inr ⟨rfl, fun x ↦ ?_⟩
    rw [eq_realLine hlow hhigh]
    exact mem_realLine x
  split
  · exact .inl (hbound _ _)
  split
  · exact .inl (hbound _ _)
  · exact .inl ⟨_, List.mem_singleton_self _, rfl, _, rfl, List.cons_ne_nil _ _⟩

end Interval

/-- An interval of all numbers is the only one of its set. -/
theorem IntervalSet.Canonical.eq_nil_of_full {iv : Interval} {rest : List Interval}
    (h : IntervalSet.Canonical (iv :: rest)) (hall : ∀ x, iv.Mem x) : rest = [] := by
  refine List.eq_nil_iff_forall_not_mem.2 fun jv hjv ↦ ?_
  obtain ⟨x, hx⟩ := Interval.exists_mem (h.nonempty jv (List.mem_cons_of_mem _ hjv))
  exact (hall x).2 (h.ended_of_started hjv hx.1)

namespace NumericValues

variable {s : IntervalSet} {null : Bool}

/-- What is demanded of a set without numbers is null. -/
theorem isNullTest_of_no_numbers (h : ∀ x, ¬ s.Mem x) {v : Option Value}
    (hv : (ValueSet.numeric ⟨s, null⟩).Mem v) :
    null = true ∧ (ValueSet.numeric ⟨s, null⟩).IsNullTest true := by
  obtain rfl : null = true := by
    cases v with
    | none => exact hv
    | some v => exact (h _ hv).elim
  refine ⟨rfl, fun v ↦ ?_⟩
  cases v with
  | none => exact iff_of_true rfl rfl
  | some v => exact iff_of_false (h _) Bool.false_ne_true

/-- What a set of all numbers leaves out is null. -/
theorem isNullTest_of_all_numbers (h : ∀ x, s.Mem x) {w : Option Value}
    (hw : ¬ (ValueSet.numeric ⟨s, null⟩).Mem w) :
    null = false ∧ (ValueSet.numeric ⟨s, null⟩).IsNullTest false := by
  obtain rfl : null = false := by
    cases null with
    | false => rfl
    | true =>
      refine absurd ?_ hw
      cases w with
      | none => rfl
      | some w => exact h _
  refine ⟨rfl, fun v ↦ ?_⟩
  cases v with
  | none => exact iff_of_false Bool.false_ne_true Bool.noConfusion
  | some v => exact iff_of_true (h _) rfl

/-- **A set of numbers is written with literals, or as a test for null.** -/
theorem compares_or_isNullTest {ns : NumericValues}
    (hd : (ValueSet.numeric ns).ProperDemand r a) : (ns.toPredicate a).Compares a ∨
      ∃ null, ns.toPredicate a = Predicate.nullTest a null ∧
        (ValueSet.numeric ns).IsNullTest null := by
  by_cases hholes : ns.HasHoles
  · obtain ⟨hnull, hole, holes, hpoints⟩ := hholes
    rw [toPredicate_of_holes hnull hpoints]
    exact .inl (Predicate.compares_noneOf (Distinct.isEmpty_ofDoubles_cons _ _))
  rw [toPredicate_of_not_hasHoles hholes, parts]
  split
  · refine .inl (Predicate.compares_disjunction
      (List.mem_append_right _ (List.mem_singleton_self _)) ?_)
    exact Predicate.compares_isIn (Distinct.isEmpty_ofDoubles_cons _ _)
  obtain ⟨v, hv⟩ := hd.demand.nonempty
  obtain ⟨full, hfull, hshape⟩ := hd.demand.full
  obtain ⟨w, -, hw⟩ := hd.exists_not_mem hfull
  obtain ⟨⟨ivs, hcanonical⟩, null⟩ := ns
  cases ivs with
  | nil =>
    have hnone : ∀ x, ¬ IntervalSet.Mem ⟨[], hcanonical⟩ x := by
      rintro x ⟨iv, hiv, -⟩
      cases hiv
    obtain ⟨rfl, htest⟩ := isNullTest_of_no_numbers hnone hv
    exact .inr ⟨true, rfl, htest⟩
  | cons iv rest =>
    rcases iv.compares_or_full a with hcompares | ⟨hwritten, hall⟩
    · refine .inl (Predicate.compares_disjunction (List.mem_append_right _ ?_) hcompares)
      exact List.mem_map_of_mem List.mem_cons_self
    · obtain rfl := hcanonical.eq_nil_of_full hall
      obtain ⟨rfl, htest⟩ := isNullTest_of_all_numbers
        (fun x ↦ ⟨iv, List.mem_cons_self, hall x⟩) hw
      exact .inr ⟨false, hwritten, htest⟩

end NumericValues

/-! ## Discrete values -/

namespace DiscreteValues

/-- A set that lists no values, and is neither nothing nor everything, is that of null or of what is
not null. -/
theorem isNullTest_of_isEmpty {d : DiscreteValues} (hempty : d.values.isEmpty = true)
    {v w : Option Value} (hv : (ValueSet.discrete d).Mem v) (hw : ¬ (ValueSet.discrete d).Mem w) :
    d.null = !d.cofinite ∧ (ValueSet.discrete d).IsNullTest d.null := by
  obtain ⟨values, cofinite, null⟩ := d
  have hnone : ∀ k, ¬ values.HasKey k := by
    rintro k ⟨x, hx, -⟩
    exact (Distinct.isEmpty_iff values).1 hempty x hx
  cases cofinite with
  | false =>
    have hmem := mem_iff_of_not_cofinite (d := ⟨values, false, null⟩) rfl
    simp only [hnone, or_false] at hmem
    obtain rfl : null = true := ((hmem v).1 hv).1
    refine ⟨rfl, fun v ↦ (hmem v).trans ?_⟩
    simp
  | true =>
    have hmem := mem_iff_of_cofinite (d := ⟨values, true, null⟩) rfl
    simp only [hnone, not_false_iff, and_true] at hmem
    obtain rfl : null = false := by
      cases null with
      | false => rfl
      | true => exact absurd ((hmem w).2 (.inl rfl)) hw
    refine ⟨rfl, fun v ↦ (hmem v).trans ?_⟩
    cases v <;> simp

/-- **A set of discrete values is written with literals, or as a test for null**, if there is no
domain. -/
theorem compares_or_isNullTest {d : DiscreteValues} {v w : Option Value}
    (hv : (ValueSet.discrete d).Mem v) (hw : ¬ (ValueSet.discrete d).Mem w) :
    (d.toPredicate a (.full none)).Compares a ∨
      ∃ null, d.toPredicate a (.full none) = Predicate.nullTest a null ∧
        (ValueSet.discrete d).IsNullTest null := by
  rw [toPredicate_everything]
  by_cases hempty : d.values.isEmpty = true
  · obtain ⟨hnull, htest⟩ := isNullTest_of_isEmpty hempty hv hw
    refine .inr ⟨d.null, ?_, htest⟩
    rw [if_pos hempty, if_pos hempty, List.append_nil, List.append_nil, hnull]
    cases d.cofinite <;> rfl
  · rw [if_neg hempty, if_neg hempty]
    left
    split
    · obtain ⟨atom, hatom, hcompares⟩ := Predicate.compares_noneOf (a := a) hempty
      exact ⟨atom, Predicate.mem_atoms_conjunction
        (List.mem_append_right _ (List.mem_singleton_self _)) hatom, hcompares⟩
    · exact Predicate.compares_disjunction (List.mem_append_right _ (List.mem_singleton_self _))
        (Predicate.compares_oneOf hempty)

end DiscreteValues

end RuleCoverage
