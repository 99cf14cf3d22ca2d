import RuleCoverage.Proofs.NormalForm.Blank
import RuleCoverage.Proofs.NormalForm.RoundTrip.Numbers

/-!
# Sets of discrete values are read as they are written

The tests for some values and for none of some values are read as the demands that they are
(`Predicate.readsAs_oneOf`, `Predicate.readsAs_noneOf`).  On an attribute without a domain the
predicate that a set is written as is read as the same set, with its members in the order in which
they are written (`DiscreteValues.readsAs_toPredicate`).
-/

set_option autoImplicit false

namespace RuleCoverage

variable {ctx : Interpretation} {r : Reading ctx} {a : String} {k : Kind}

/-! ## Sets of scalars -/

namespace Distinct

variable {α : Type} [BEq α] {s t : Distinct α}

theorem eq_of_toList (h : s.toList = t.toList) : s = t := by
  obtain ⟨xs, hxs⟩ := s
  obtain ⟨ys, hys⟩ := t
  obtain rfl : xs = ys := h
  rfl

theorem union_empty (s : Distinct α) : s.union ∅ = s := rfl

theorem empty_union (s : Distinct α) : (∅ : Distinct α).union s = s :=
  eq_of_toList (toList_foldl_insert (s := ∅) s.distinct)

theorem diff_empty (s : Distinct α) : s.diff ∅ = s :=
  eq_of_toList (List.filter_eq_self.2 fun _ _ ↦ rfl)

theorem ofList_singleton (x : α) : ofList [x] = singleton x :=
  eq_of_toList (toList_ofList (List.pairwise_singleton _ _))

end Distinct

/-! ## Tests for values -/

namespace Predicate

variable {values : Distinct Scalar} {full : DiscreteValues}

theorem values?_isNull_discrete (hk : ctx.kind? a = some k) (hk' : k ≠ .numeric) :
    ctx.values? (.isNull (.text a)) = .ok (some (.discrete .onlyNull)) := by
  rw [Interpretation.values?_isNull hk, if_neg hk']

theorem values?_of_discrete {atom : Predicate} {d : DiscreteValues} (hk : ctx.kind? a = some k)
    (hk' : k ≠ .numeric) (hn : atom.named? = some a) (hnull : ∀ b, atom ≠ .isNull b)
    (hd : atom.discreteValues? k = some d) : ctx.values? atom = .ok (some (.discrete d)) := by
  rw [Interpretation.values?_discrete hn hk hk' hnull, hd]
  rfl

theorem discreteValues?_eq {s : Scalar} (hs : k.Admits s) :
    (compare (.text a) .eq (.scalar s)).discreteValues? k = some (.only (.singleton s)) := by
  rw [discreteValues?, if_pos hs.fits, hs.plain]

theorem discreteValues?_ne {s : Scalar} (hs : k.Admits s) :
    (compare (.text a) .ne (.scalar s)).discreteValues? k =
      some (DiscreteValues.only (.singleton s)).complement := by
  rw [discreteValues?, if_pos hs.fits, hs.plain]

theorem discreteValues?_isIn (h : ∀ s ∈ values.toList, k.Admits s) :
    (isIn (.text a) values.resorted).discreteValues? k = some (.only values.resorted) := by
  have hadmits : ∀ s ∈ values.resorted.toList, k.Admits s :=
    fun s hs ↦ h s (Distinct.mem_resorted.1 hs)
  have hplain : values.resorted.toList.map Scalar.plain = values.resorted.toList := by
    conv_rhs => rw [← List.map_id values.resorted.toList]
    exact List.map_congr_left fun s hs ↦ (hadmits s hs).plain
  have hset : Distinct.ofList values.resorted.toList = values.resorted :=
    Distinct.eq_of_toList (Distinct.toList_ofList values.resorted.distinct)
  rw [discreteValues?, if_pos (List.all_eq_true.2 fun s hs ↦ (hadmits s hs).fits), hplain, hset]

theorem oneOf_resorted (a : String) (values : Distinct Scalar) :
    oneOf a values.resorted = oneOf a values := by
  rw [oneOf, oneOf, Distinct.sorted_resorted]

theorem noneOf_resorted (a : String) (values : Distinct Scalar) :
    noneOf a values.resorted = noneOf a values := by
  rw [noneOf, noneOf, Distinct.sorted_resorted]

/-- A test for one of some values is read as the demand for them. -/
theorem readsAs_oneOf (hk : ctx.kind? a = some k) (hk' : k ≠ .numeric)
    (hfull : ctx.full? a = some (.discrete full)) (h : ∀ s ∈ values.toList, k.Admits s)
    (hd : (ValueSet.discrete ((DiscreteValues.only values.resorted).inter full)).ProperDemand r a) :
    (oneOf a values).ReadsAs ctx
      (.ofValues a (.discrete ((DiscreteValues.only values.resorted).inter full))) := by
  rw [oneOf]
  split
  · rename_i s hs
    have hmem : s ∈ values.toList := by
      rw [← values.sorted_perm.mem_iff, hs]
      exact List.mem_singleton_self s
    have hatom : IsAtom (.compare (.text a) .eq (.scalar s)) := trivial
    have hvalues : ctx.values? (.compare (.text a) .eq (.scalar s)) =
        .ok (some (.discrete (.only values.resorted))) := by
      rw [values?_of_discrete hk hk' rfl (by simp) (discreteValues?_eq (h s hmem)),
        Distinct.resorted, hs, Distinct.ofList_singleton]
    exact readsAs_atom hatom rfl hvalues hfull rfl hd
  · have hatom : IsAtom (.isIn (.text a) values.resorted) := trivial
    exact readsAs_atom hatom rfl (values?_of_discrete hk hk' rfl (by simp) (discreteValues?_isIn h))
      hfull rfl hd

/-- A test for none of some values is read as the demand for the other ones. -/
theorem readsAs_noneOf (hk : ctx.kind? a = some k) (hk' : k ≠ .numeric)
    (hfull : ctx.full? a = some (.discrete full)) (h : ∀ s ∈ values.toList, k.Admits s)
    (hd : (ValueSet.discrete
      ((DiscreteValues.only values.resorted).complement.inter full)).ProperDemand r a) :
    (noneOf a values).ReadsAs ctx
      (.ofValues a (.discrete ((DiscreteValues.only values.resorted).complement.inter full))) := by
  rw [noneOf]
  split
  · rename_i s hs
    have hmem : s ∈ values.toList := by
      rw [← values.sorted_perm.mem_iff, hs]
      exact List.mem_singleton_self s
    have hatom : IsAtom (.compare (.text a) .ne (.scalar s)) := trivial
    have hvalues : ctx.values? (.compare (.text a) .ne (.scalar s)) =
        .ok (some (.discrete (DiscreteValues.only values.resorted).complement)) := by
      rw [values?_of_discrete hk hk' rfl (by simp) (discreteValues?_ne (h s hmem)),
        Distinct.resorted, hs, Distinct.ofList_singleton]
    exact readsAs_atom hatom rfl hvalues hfull rfl hd
  · have hatom : IsAtom (.isIn (.text a) values.resorted) := trivial
    exact readsAs_not_atom hatom rfl
      (values?_of_discrete hk hk' rfl (by simp) (discreteValues?_isIn h)) hfull rfl hd

end Predicate

/-! ## Attributes without a domain -/

namespace DiscreteValues

variable {d : DiscreteValues}

theorem inter_everything (d : DiscreteValues) : d.inter (full none) = d := by
  obtain ⟨values, cofinite, null⟩ := d
  cases cofinite <;> simp [inter, full, Distinct.diff_empty, Distinct.union_empty]

theorem writable_empty {cofinite null : Bool} :
    (ValueSet.discrete ⟨∅, cofinite, null⟩).Writable r a := by
  rintro e ⟨⟩ s hs
  exact absurd hs (Distinct.not_mem_empty s)

/-- Values that may be written may be written in order, on their own or as what is left out. -/
theorem writable_resorted {values : Distinct Scalar} {cofinite null : Bool}
    (h : (ValueSet.discrete (.only values)).Writable r a) :
    (ValueSet.discrete ⟨values.resorted, cofinite, null⟩).Writable r a := by
  rintro e ⟨⟩ x hx
  exact h _ rfl x (Distinct.mem_resorted.1 hx)

/-- What is neither nothing nor everything is a proper demand. -/
theorem properDemand (hfull : ctx.full? a = some (.discrete (.full none)))
    (hw : (ValueSet.discrete d).Writable r a) {v w : Option Value}
    (hmem : (ValueSet.discrete d).Mem v) (hnot : ¬ (ValueSet.discrete d).Mem w) :
    (ValueSet.discrete d).ProperDemand r a := by
  refine ⟨⟨⟨_, hfull, rfl⟩, ?_, ⟨v, hmem⟩, hw⟩, ?_⟩
  · intro full' hfull' v _
    cases hfull.symm.trans hfull'
    exact mem_everything _
  · intro full' hfull' heq
    cases hfull.symm.trans hfull'
    exact hnot ((ValueSet.mem_congr heq w).2 (mem_everything _))

/-- The set as its members are written. -/
def resorted (d : DiscreteValues) : DiscreteValues := ⟨d.values.resorted, d.cofinite, d.null⟩

theorem mem_resorted (v : Option (Option Scalar.Key)) : d.resorted.Mem v ↔ d.Mem v := by
  cases v with
  | none => exact Iff.rfl
  | some k =>
    rw [Mem, Mem, resorted]
    simp only [Distinct.hasKey_resorted]

theorem resorted_beq (d : DiscreteValues) : (d == d.resorted) = true :=
  (beq_iff _ _).2 ⟨(mem_resorted _).symm, (mem_resorted _).symm, fun _ ↦ (mem_resorted _).symm⟩

theorem isEmpty_resorted (s : Distinct Scalar) : s.resorted.isEmpty = s.isEmpty := by
  rw [Bool.eq_iff_iff, Distinct.isEmpty_iff, Distinct.isEmpty_iff]
  simp only [Distinct.mem_resorted]

/-- Where there is no domain, the values left out of a finite set are not fewer. -/
theorem toPredicate_everything (a : String) (d : DiscreteValues) : d.toPredicate a (full none) =
    if d.cofinite then
      .conjunction ((if d.null then [] else [.not (.isNull (.text a))]) ++
        (if d.values.isEmpty then [] else [.noneOf a d.values]))
    else .disjunction (Predicate.nullPart a d.null ++
      if d.values.isEmpty then [] else [.oneOf a d.values]) := by
  rw [toPredicate, inter_everything]
  split
  · rfl
  · rename_i hco
    rw [if_neg]
    simp [complement, hco]

theorem toPredicate_resorted (a : String) (d : DiscreteValues) :
    d.resorted.toPredicate a (full none) = d.toPredicate a (full none) := by
  rw [toPredicate_everything, toPredicate_everything, resorted]
  rw [isEmpty_resorted, Predicate.noneOf_resorted, Predicate.oneOf_resorted]

section everything

variable (hk : ctx.kind? a = some k) (hk' : k ≠ .numeric)
  (hfull : ctx.full? a = some (.discrete (.full none))) {values : Distinct Scalar}

include hk hk' hfull

theorem readsAs_isNull (r : Reading ctx) :
    Predicate.ReadsAs ctx (.isNull (.text a)) (.ofValues a (.discrete .onlyNull)) ∧
      (ValueSet.discrete .onlyNull).ProperDemand r a := by
  have hd : (ValueSet.discrete .onlyNull).ProperDemand r a := by
    have hnull : (ValueSet.discrete .onlyNull).Mem none := rfl
    have hnot : ¬ (ValueSet.discrete .onlyNull).Mem (some (.number 0)) := Distinct.not_hasKey_none
    exact properDemand hfull writable_empty hnull hnot
  have hatom : Predicate.IsAtom (.isNull (.text a)) := trivial
  exact ⟨Predicate.readsAs_atom hatom rfl (Predicate.values?_isNull_discrete hk hk') hfull
    (congrArg ValueSet.discrete (inter_everything _)) hd, hd⟩

theorem readsAs_not_isNull (r : Reading ctx) :
    Predicate.ReadsAs ctx (.not (.isNull (.text a))) (.ofValues a (.discrete ⟨∅, true, false⟩)) ∧
      (ValueSet.discrete ⟨∅, true, false⟩).ProperDemand r a := by
  have hd : (ValueSet.discrete ⟨∅, true, false⟩).ProperDemand r a := by
    have hmem : (ValueSet.discrete ⟨∅, true, false⟩).Mem (some (.number 0)) :=
      Distinct.not_hasKey_none
    have hnull : ¬ (ValueSet.discrete ⟨∅, true, false⟩).Mem none := Bool.false_ne_true
    exact properDemand hfull writable_empty hmem hnull
  have hatom : Predicate.IsAtom (.isNull (.text a)) := trivial
  exact ⟨Predicate.readsAs_not_atom hatom rfl (Predicate.values?_isNull_discrete hk hk') hfull
    (congrArg ValueSet.discrete (inter_everything _)) hd, hd⟩

/-- One of some values, none of them missing. -/
theorem readsAs_oneOf (hvalues : (ValueSet.discrete (.only values)).Writable r a)
    (hadmits : ∀ s ∈ values.toList, k.Admits s) (hne : ¬ values.isEmpty = true) :
    (Predicate.oneOf a values).ReadsAs ctx (.ofValues a (.discrete (.only values.resorted))) ∧
      (ValueSet.discrete (.only values.resorted)).ProperDemand r a := by
  rw [Distinct.isEmpty_iff, not_forall_not] at hne
  obtain ⟨s, hs⟩ := hne
  have hd : (ValueSet.discrete (.only values.resorted)).ProperDemand r a := by
    have hmem : (ValueSet.discrete (.only values.resorted)).Mem (some (.literal (.scalar s))) :=
      ⟨s, Distinct.mem_resorted.2 hs, rfl⟩
    have hnull : ¬ (ValueSet.discrete (.only values.resorted)).Mem none := Bool.false_ne_true
    exact properDemand hfull (writable_resorted hvalues) hmem hnull
  refine ⟨?_, hd⟩
  rw [← inter_everything (.only values.resorted)] at hd ⊢
  exact Predicate.readsAs_oneOf hk hk' hfull hadmits hd

/-- None of some values. -/
theorem readsAs_noneOf (hvalues : (ValueSet.discrete (.only values)).Writable r a)
    (hadmits : ∀ s ∈ values.toList, k.Admits s) (hne : ¬ values.isEmpty = true) :
    (Predicate.noneOf a values).ReadsAs ctx
        (.ofValues a (.discrete ⟨values.resorted, true, true⟩)) ∧
      (ValueSet.discrete ⟨values.resorted, true, true⟩).ProperDemand r a := by
  rw [Distinct.isEmpty_iff, not_forall_not] at hne
  obtain ⟨s, hs⟩ := hne
  have hd : (ValueSet.discrete ⟨values.resorted, true, true⟩).ProperDemand r a := by
    have hmem : (ValueSet.discrete ⟨values.resorted, true, true⟩).Mem none := rfl
    have hnot : ¬ (ValueSet.discrete ⟨values.resorted, true, true⟩).Mem
        (some (.literal (.scalar s))) :=
      fun h ↦ h ⟨s, Distinct.mem_resorted.2 hs, rfl⟩
    exact properDemand hfull (writable_resorted hvalues) hmem hnot
  refine ⟨?_, hd⟩
  have hset : (only values.resorted).complement.inter (full none) =
      ⟨values.resorted, true, true⟩ := inter_everything _
  rw [← hset] at hd ⊢
  exact Predicate.readsAs_noneOf hk hk' hfull hadmits hd

/-- Null or one of some values. -/
theorem readsAs_null_or_oneOf (hvalues : (ValueSet.discrete (.only values)).Writable r a)
    (hadmits : ∀ s ∈ values.toList, k.Admits s) (hne : ¬ values.isEmpty = true) :
    (Predicate.disjunction [.isNull (.text a), .oneOf a values]).ReadsAs ctx
      (.ofValues a (.discrete ⟨values.resorted, false, true⟩)) := by
  obtain ⟨hone, honed⟩ := readsAs_oneOf hk hk' hfull hvalues hadmits hne
  obtain ⟨hnull, hnulld⟩ := readsAs_isNull hk hk' hfull r
  have hunion : onlyNull.union (only values.resorted) = ⟨values.resorted, false, true⟩ :=
    congrArg (DiscreteValues.mk · false true) (Distinct.empty_union values.resorted)
  rw [← hunion]
  refine Predicate.readsAs_or hnull hone hnulld.demand honed.demand ?_ ?_
  · intro v hv hmem
    rw [ValueSet.Mem, mem_onlyNull, Option.map_eq_none_iff] at hv
    subst hv
    cases hmem
  · rw [hfull, Option.some_beq_some]
    intro heq
    have hmem : (ValueSet.discrete (full none)).Mem (some (.number 0)) := mem_everything (some none)
    rw [ValueSet.mem_congr heq, ValueSet.union, hunion] at hmem
    exact Distinct.not_hasKey_none hmem

/-- Not null and none of some values. -/
theorem readsAs_not_null_and_noneOf (hvalues : (ValueSet.discrete (.only values)).Writable r a)
    (hadmits : ∀ s ∈ values.toList, k.Admits s) (hne : ¬ values.isEmpty = true) :
    (Predicate.conjunction [.not (.isNull (.text a)), .noneOf a values]).ReadsAs ctx
      (.ofValues a (.discrete ⟨values.resorted, true, false⟩)) := by
  have hnone := (readsAs_noneOf hk hk' hfull hvalues hadmits hne).1
  have hnot := (readsAs_not_isNull hk hk' hfull r).1
  have hinter : (ValueSet.discrete ⟨∅, true, false⟩).inter
      (.discrete ⟨values.resorted, true, true⟩) = .discrete ⟨values.resorted, true, false⟩ :=
    congrArg (fun s ↦ ValueSet.discrete ⟨s, true, false⟩) (Distinct.empty_union values.resorted)
  refine Predicate.readsAs_conjunction (.cons hnot (.cons hnone .nil)) ?_ ?_
  · simp [Term.always_conjoin?_ofValues]
  · rw [List.foldlM_cons, Term.always_conjoin?_ofValues, ← hinter]
    show (Term.conjoin? _ _ >>= fun t ↦ some t) = _
    rw [Term.conjoin?_ofValues]
    · rfl
    · rw [hinter]
      exact Bool.false_ne_true

/-- A demand that lists no values is about null alone. -/
theorem readsAs_toPredicate_of_isEmpty (hempty : d.values.isEmpty = true)
    (hd : (ValueSet.discrete d).ProperDemand r a) :
    (d.toPredicate a (.full none)).ReadsAs ctx (.ofValues a (.discrete d.resorted)) := by
  obtain ⟨values, cofinite, null⟩ := d
  obtain rfl : values = ∅ := by
    rw [Distinct.isEmpty, List.isEmpty_iff] at hempty
    exact Distinct.eq_of_toList hempty
  rw [toPredicate_everything, resorted, Distinct.resorted_empty]
  cases cofinite <;> cases null
  · -- nothing would be demanded
    obtain ⟨v, hv⟩ := hd.demand.nonempty
    rw [ValueSet.Mem, mem_iff_of_not_cofinite rfl] at hv
    simp at hv
  · exact (readsAs_isNull hk hk' hfull r).1
  · exact (readsAs_not_isNull hk hk' hfull r).1
  · exact absurd BEq.rfl (hd.proper _ hfull)

/-- **Without a domain a set is read as it is written**, with its members in order. -/
theorem readsAs_toPredicate (hadmits : ∀ s ∈ d.values.toList, k.Admits s)
    (hd : (ValueSet.discrete d).ProperDemand r a) :
    (d.toPredicate a (.full none)).ReadsAs ctx (.ofValues a (.discrete d.resorted)) := by
  by_cases hne : d.values.isEmpty = true
  · exact readsAs_toPredicate_of_isEmpty hk hk' hfull hne hd
  obtain ⟨values, cofinite, null⟩ := d
  have hvalues : (ValueSet.discrete (.only values)).Writable r a := by
    rintro e ⟨⟩ x hx
    exact hd.demand.writable _ rfl x hx
  rw [toPredicate_everything, resorted]
  simp only [if_neg hne]
  cases cofinite <;> cases null
  · exact (readsAs_oneOf hk hk' hfull hvalues hadmits hne).1
  · exact readsAs_null_or_oneOf hk hk' hfull hvalues hadmits hne
  · exact readsAs_not_null_and_noneOf hk hk' hfull hvalues hadmits hne
  · exact (readsAs_noneOf hk hk' hfull hvalues hadmits hne).1

end everything

end DiscreteValues

end RuleCoverage
