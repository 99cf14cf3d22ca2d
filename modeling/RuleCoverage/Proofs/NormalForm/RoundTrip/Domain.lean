import RuleCoverage.Proofs.NormalForm.RoundTrip.Discrete
import RuleCoverage.Proofs.Values.Counting

/-!
# Values from a domain are read as they are written

Where an attribute has a domain, a set of its values is written as the values that it holds, or, if
the missing value is among them, as the ones that it leaves out.  What is read is the same set, but
the spelling of the values may be the one of the domain: it is if the set holds all of them.

A set that holds the whole domain in the order in which the domain is written is *settled*
(`DiscreteValues.Settled`), and so is one that does not hold the whole domain.  What is read is
settled, and a settled set is written in the same way again (`DiscreteValues.exists_readsAs`).
-/

set_option autoImplicit false

namespace RuleCoverage

variable {ctx : Interpretation} {r : Reading ctx} {a : String} {k : Kind}

/-! ## Sets that hold all of a domain -/

namespace Distinct

variable {s t : Distinct Scalar} {p : Scalar → Bool}

theorem size_filter_le : (s.filter p).size ≤ s.size := List.length_filter_le p s.toList

/-- A selection that has all the members is the whole set. -/
theorem filter_eq_self_of_size_le (h : s.size ≤ (s.filter p).size) : s.filter p = s :=
  eq_of_toList (List.filter_sublist.eq_of_length_le h)

/-- What is taken away may be spelled in another way. -/
theorem diff_congr {u : Distinct Scalar} (h : (s == t) = true) : u.diff s = u.diff t := by
  refine eq_of_toList (List.filter_congr fun x _ ↦ ?_)
  rw [Bool.eq_iff_iff, Bool.not_eq_true', Bool.not_eq_true', ← Bool.not_eq_true,
    ← Bool.not_eq_true, contains_iff_hasKey, contains_iff_hasKey, hasKey_congr h]

/-- The members of an intersection are taken from the smaller set. -/
theorem inter_cases (s t : Distinct Scalar) :
    (s.size < t.size ∧ s.inter t = s.filter t.contains) ∨
      (t.size ≤ s.size ∧ s.inter t = t.filter s.contains) := by
  rw [inter]
  split
  · exact .inl ⟨‹_›, rfl⟩
  · exact .inr ⟨Nat.not_lt.1 ‹_›, rfl⟩

end Distinct

namespace DiscreteValues

variable {d e full : DiscreteValues}

/-- If the set holds all of a domain, it is written as the domain is. -/
def Settled (d full : DiscreteValues) : Prop :=
  full.cofinite = false → d.cofinite = false → full.values.subset d.values = true →
    d.values.sorted = full.values.sorted

theorem values_inter (hd : d.cofinite = false) (he : e.cofinite = false) :
    (d.inter e).values = d.values.inter e.values := by
  rw [inter, hd, he]

/-- What is cut down to the domain is spelled like the domain when it is all of it. -/
theorem settled_inter_full (d full : DiscreteValues) : (d.inter full).Settled full := by
  intro hfull _ hsub
  have hsize := Distinct.size_le_of_subset hsub
  cases hd : d.cofinite with
  | false =>
    rw [values_inter hd hfull] at hsize ⊢
    rcases d.values.inter_cases full.values with ⟨hlt, hinter⟩ | ⟨-, hinter⟩
    · rw [hinter] at hsize
      exact absurd (Nat.lt_of_le_of_lt Distinct.size_filter_le hlt) (Nat.not_lt.2 hsize)
    · rw [hinter] at hsize ⊢
      rw [Distinct.filter_eq_self_of_size_le hsize]
  | true =>
    have hvalues : (d.inter full).values = full.values.diff d.values := by rw [inter, hd, hfull]
    rw [hvalues] at hsize ⊢
    rw [Distinct.diff, Distinct.filter_eq_self_of_size_le hsize]

/-- A part of a domain has all of it only if the set that it is cut out of has. -/
theorem Settled.inter (hco : d.cofinite = false) (hco' : e.cofinite = false)
    (hsub : e.values.subset full.values = true) (he : e.Settled full) :
    (d.inter e).Settled full := by
  intro hfull _ hall
  rw [values_inter hco hco'] at hall ⊢
  have hsize := Distinct.size_le_of_subset hall
  have hesize := Distinct.size_le_of_subset hsub
  rcases d.values.inter_cases e.values with ⟨hlt, hinter⟩ | ⟨-, hinter⟩
  · rw [hinter] at hsize
    have := Distinct.size_filter_le (s := d.values) (p := e.values.contains)
    omega
  · rw [hinter] at hsize hall ⊢
    have heq := Distinct.filter_eq_self_of_size_le (Nat.le_trans hesize hsize)
    rw [heq] at hall ⊢
    exact he hfull hco' hall

end DiscreteValues

/-- If a set of discrete values holds all of the domain of its attribute, it is written as the
domain is. -/
def ValueSet.Settled (ctx : Interpretation) (a : String) (vs : ValueSet) : Prop :=
  ∀ d full, vs = .discrete d → ctx.full? a = some (.discrete full) → d.Settled full

namespace DiscreteValues

variable {d full : DiscreteValues} {domain : Distinct Scalar}

/-- A demand on an attribute with a domain is a finite set. -/
theorem cofinite_of_demand (hfull : ctx.full? a = some (.discrete full))
    (hco : full.cofinite = false) (hd : (ValueSet.discrete d).Demand r a) : d.cofinite = false := by
  have hwithin : d.Mem (some none) → full.Mem (some none) :=
    hd.within _ hfull (some (.number 0))
  have hnot : ¬ full.Mem (some none) := by
    rw [Mem, if_neg (by simp [hco])]
    exact Distinct.not_hasKey_none
  cases h : d.cofinite with
  | false => rfl
  | true =>
    refine absurd (hwithin ?_) hnot
    rw [Mem, if_pos h]
    exact Distinct.not_hasKey_none

/-- A demand on an attribute with a domain holds values of the domain. -/
theorem hasKey_of_demand (hfull : ctx.full? a = some (.discrete full))
    (hco : full.cofinite = false) (hd : (ValueSet.discrete d).Demand r a) {x : Scalar}
    (h : d.values.HasKey (some x.key)) : full.values.HasKey (some x.key) := by
  have hfinite := cofinite_of_demand hfull hco hd
  have hmem : (ValueSet.discrete d).Mem (some (.literal (.scalar x))) :=
    (mem_iff_of_not_cofinite hfinite (some (.literal (.scalar x)))).2 (.inr h)
  exact ((mem_iff_of_not_cofinite hco _).1 (hd.within _ hfull _ hmem)).resolve_left (by simp)

theorem subset_of_demand (hfull : ctx.full? a = some (.discrete full))
    (hco : full.cofinite = false) (hd : (ValueSet.discrete d).Demand r a) :
    d.values.subset full.values = true := by
  rw [Distinct.subset_iff Scalar.decidedBy_key (fun _ _ ↦ trivial) fun _ _ ↦ trivial]
  rintro _ ⟨x, hx, rfl⟩
  exact Distinct.hasKey_some.1 (hasKey_of_demand hfull hco hd ⟨x, hx, rfl⟩)

end DiscreteValues

namespace ValueSet

variable {us vs full : ValueSet}

theorem settled_inter_full (hfull : ctx.full? a = some full) : (vs.inter full).Settled ctx a := by
  intro d full' hd hfull'
  cases hfull.symm.trans hfull'
  cases vs with
  | numeric => cases hd
  | discrete e =>
    cases hd
    exact e.settled_inter_full full'

theorem Settled.inter (hu : us.Demand r a) (hv : vs.Demand r a) (h : vs.Settled ctx a) :
    (us.inter vs).Settled ctx a := by
  intro d full hd hfull hco
  cases us with
  | numeric => cases vs <;> cases hd
  | discrete e =>
    cases vs with
    | numeric => exact absurd (hu.sameShape hv) Bool.false_ne_true
    | discrete e' =>
      cases hd
      exact DiscreteValues.Settled.inter (DiscreteValues.cofinite_of_demand hfull hco hu)
        (DiscreteValues.cofinite_of_demand hfull hco hv)
        (DiscreteValues.subset_of_demand hfull hco hv) (h e' full rfl hfull) hco

end ValueSet

/-! ## Attributes with a domain -/

namespace DiscreteValues

variable {d : DiscreteValues} {domain : Distinct Scalar}

theorem toPredicate_domain (a : String) (hco : d.cofinite = false)
    (hnull : d.null = true → ¬ (domain.diff d.values).isEmpty = true)
    (hvalues : d.null = false → ¬ d.values.isEmpty = true) :
    d.toPredicate a (full (some domain)) =
      if d.null then .noneOf a (domain.diff d.values) else .oneOf a d.values := by
  have houtside : d.complement.inter (full (some domain)) =
      ⟨domain.diff d.values, false, !d.null⟩ := by
    simp [complement, inter, full, hco]
  rw [toPredicate, if_neg (by simp [hco]), houtside]
  cases h : d.null with
  | true => simp [hnull h]
  | false => simp [hvalues h, Predicate.nullPart, Predicate.disjunction]

/-- A proper demand that has the missing value leaves out a value of the domain. -/
theorem not_isEmpty_diff (hfull : ctx.full? a = some (.discrete (.full (some domain))))
    (hco : d.cofinite = false) (hnull : d.null = true)
    (hd : (ValueSet.discrete d).ProperDemand r a) : ¬ (domain.diff d.values).isEmpty = true := by
  rw [Distinct.isEmpty_iff, not_forall_not]
  obtain ⟨w, hw, hnot⟩ := hd.exists_not_mem hfull
  rw [ValueSet.Mem, mem_iff_of_not_cofinite rfl] at hw
  rw [ValueSet.Mem, mem_iff_of_not_cofinite hco, hnull, not_or, and_iff_right rfl] at hnot
  obtain ⟨s, hs, hkey⟩ := hw.resolve_left fun h ↦ hnot.1 h.2
  refine ⟨s, Distinct.mem_diff.2 ⟨hs, fun hc ↦ hnot.2 ?_⟩⟩
  rw [← hkey]
  exact Distinct.contains_iff_hasKey.1 hc

/-- A demand for finitely many values, none of them missing, has some. -/
theorem not_isEmpty_values (hco : d.cofinite = false) (hnull : d.null = false)
    (hd : (ValueSet.discrete d).Demand r a) : ¬ d.values.isEmpty = true := by
  intro hempty
  obtain ⟨v, hv⟩ := hd.nonempty
  rw [ValueSet.Mem, mem_iff_of_not_cofinite hco, hnull] at hv
  obtain ⟨s, hs, -⟩ := hv.resolve_left fun h ↦ Bool.noConfusion h.1
  exact (Distinct.isEmpty_iff d.values).1 hempty s hs

/-- The set that is read where values of a domain are written, but not the missing value. -/
def readWithin (d : DiscreteValues) (domain : Distinct Scalar) : DiscreteValues :=
  (only d.values.resorted).inter (full (some domain))

/-- The set that is read where the values of a domain that are left out are written. -/
def readOutside (d : DiscreteValues) (domain : Distinct Scalar) : DiscreteValues :=
  (only (domain.diff d.values).resorted).complement.inter (full (some domain))

section reread

variable (hsub : d.values.subset domain = true)

include hsub

theorem hasKey_of_subset {x : Scalar} (h : d.values.HasKey (some x.key)) :
    domain.HasKey (some x.key) := by
  rw [Distinct.subset_iff Scalar.decidedBy_key (fun _ _ ↦ trivial) fun _ _ ↦ trivial] at hsub
  exact Distinct.hasKey_some.2 (hsub _ (Distinct.hasKey_some.1 h))

theorem readWithin_beq (hco : d.cofinite = false) (hnull : d.null = false) :
    (d == d.readWithin domain) = true := by
  have hvalues : (d.values == (d.readWithin domain).values) = true := by
    rw [Distinct.beq_iff_hasKey]
    intro x
    have hmem : (d.readWithin domain).values.HasKey (some x.key) ↔
        d.values.resorted.HasKey (some x.key) ∧ domain.HasKey (some x.key) :=
      Distinct.hasKey_inter
    rw [hmem, Distinct.hasKey_resorted, iff_self_and]
    exact hasKey_of_subset hsub
  show (d.values == (d.readWithin domain).values && d.cofinite == false && d.null == false) = true
  rw [hvalues, hco, hnull]
  rfl

theorem readOutside_values_beq : (d.values == (d.readOutside domain).values) = true := by
  rw [Distinct.beq_iff_hasKey]
  intro x
  have hmem : (d.readOutside domain).values.HasKey (some x.key) ↔
      domain.HasKey (some x.key) ∧ ¬ (domain.diff d.values).resorted.HasKey (some x.key) :=
    Distinct.hasKey_diff
  have := hasKey_of_subset hsub (x := x)
  rw [hmem, Distinct.hasKey_resorted, Distinct.hasKey_diff]
  tauto

theorem readOutside_beq (hco : d.cofinite = false) (hnull : d.null = true) :
    (d == d.readOutside domain) = true := by
  show (d.values == (d.readOutside domain).values && d.cofinite == false && d.null == true) = true
  rw [readOutside_values_beq hsub, hco, hnull]
  rfl

/-- Either the values keep their spelling, or they are the whole domain. -/
theorem readWithin_cases : (d.readWithin domain).values = d.values.resorted ∨
    domain.subset d.values = true ∧ (d.readWithin domain).values = domain := by
  rcases d.values.resorted.inter_cases domain with ⟨-, hinter⟩ | ⟨hle, hinter⟩
  · refine .inl (hinter.trans (Distinct.eq_of_toList (List.filter_eq_self.2 fun s hs ↦ ?_)))
    rw [Distinct.contains_iff_hasKey]
    exact hasKey_of_subset hsub ⟨s, Distinct.mem_resorted.1 hs, rfl⟩
  · rw [Distinct.size_resorted] at hle
    have hall := Distinct.subset_of_size_le hsub hle
    refine .inr ⟨hall, hinter.trans (Distinct.eq_of_toList (List.filter_eq_self.2 fun s hs ↦ ?_))⟩
    rw [Distinct.contains_iff_hasKey, Distinct.hasKey_resorted]
    obtain ⟨t, ht, hts⟩ := List.any_eq_true.1 (List.all_eq_true.1 hall s hs)
    exact ⟨t, ht, congrArg some ((Scalar.beq_iff_key t s).1 hts)⟩

/-- The values of a settled set are written again as they were. -/
theorem oneOf_readWithin (hco : d.cofinite = false) (hsettled : d.Settled (full (some domain))) :
    Predicate.oneOf a (d.readWithin domain).values = Predicate.oneOf a d.values := by
  rcases readWithin_cases hsub with hkept | ⟨hall, hkept⟩
  · rw [hkept, Predicate.oneOf_resorted]
  · rw [hkept, Predicate.oneOf, Predicate.oneOf, hsettled rfl hco hall]
    rfl

end reread

section domain

variable (hk : ctx.kind? a = some k) (hk' : k ≠ .numeric)
  (hfull : ctx.full? a = some (.discrete (.full (some domain))))

include hk hk' hfull

/-- All but some values of the domain, and the missing value. -/
theorem exists_readsAs_of_null (hdomain : ∀ s ∈ domain.toList, k.Admits s)
    (hd : (ValueSet.discrete d).ProperDemand r a)
    (hco : d.cofinite = false) (hnull : d.null = true) : ∃ d' : DiscreteValues,
      (d.toPredicate a (full (some domain))).ReadsAs ctx (.ofValues a (.discrete d')) ∧
        (d == d') = true ∧ d'.Settled (full (some domain)) ∧
          d'.toPredicate a (full (some domain)) = d.toPredicate a (full (some domain)) := by
  have hsub := subset_of_demand hfull rfl hd.demand
  have hbeq := readOutside_beq hsub hco hnull
  have hproper : (ValueSet.discrete (d.readOutside domain)).ProperDemand r a := by
    refine hd.congr (BEq.symm (a := ValueSet.discrete d) hbeq) ?_
    rintro e ⟨⟩ s hs
    exact r.compares_domain hfull s (Distinct.mem_diff.1 hs).1
  have houtside : ¬ (domain.diff d.values).isEmpty = true := not_isEmpty_diff hfull hco hnull hd
  have hdiff : domain.diff (d.readOutside domain).values = domain.diff d.values :=
    (Distinct.diff_congr (readOutside_values_beq hsub)).symm
  have hwritten : d.toPredicate a (full (some domain)) = _ :=
    toPredicate_domain a hco (fun _ ↦ houtside) (by simp [hnull])
  have hwritten' : (d.readOutside domain).toPredicate a (full (some domain)) =
      .noneOf a (domain.diff d.values) := by
    rw [toPredicate_domain a rfl (fun _ ↦ hdiff ▸ houtside) Bool.noConfusion, hdiff]
    rfl
  rw [hwritten, if_pos hnull]
  have hadmits : ∀ s ∈ (domain.diff d.values).toList, k.Admits s :=
    fun s hs ↦ hdomain s (Distinct.mem_diff.1 hs).1
  exact ⟨d.readOutside domain, Predicate.readsAs_noneOf hk hk' hfull hadmits hproper, hbeq,
    settled_inter_full _ _, hwritten'⟩

/-- Some values of the domain. -/
theorem exists_readsAs_of_not_null (hadmits : ∀ s ∈ d.values.toList, k.Admits s)
    (hd : (ValueSet.discrete d).ProperDemand r a)
    (hco : d.cofinite = false) (hnull : d.null = false) : ∃ d' : DiscreteValues,
      (d.toPredicate a (full (some domain))).ReadsAs ctx (.ofValues a (.discrete d')) ∧
        (d == d') = true ∧ d'.Settled (full (some domain)) ∧
          (d.Settled (full (some domain)) →
            d'.toPredicate a (full (some domain)) = d.toPredicate a (full (some domain))) := by
  have hsub := subset_of_demand hfull rfl hd.demand
  have hbeq := readWithin_beq hsub hco hnull
  have hproper : (ValueSet.discrete (d.readWithin domain)).ProperDemand r a := by
    refine hd.congr (BEq.symm (a := ValueSet.discrete d) hbeq) ?_
    rintro e ⟨⟩ s hs
    rcases Distinct.mem_of_mem_inter hs with hs | hs
    · exact hd.demand.writable d rfl s (Distinct.mem_resorted.1 hs)
    · exact r.compares_domain hfull s hs
  have hwritten : d.toPredicate a (full (some domain)) = _ :=
    toPredicate_domain a hco (by simp [hnull]) fun _ ↦ not_isEmpty_values hco hnull hd.demand
  have hwritten' : (d.readWithin domain).toPredicate a (full (some domain)) =
      .oneOf a (d.readWithin domain).values :=
    toPredicate_domain a rfl Bool.noConfusion fun _ ↦ not_isEmpty_values rfl rfl hproper.demand
  rw [hwritten, if_neg (by simp [hnull])]
  exact ⟨d.readWithin domain, Predicate.readsAs_oneOf hk hk' hfull hadmits hproper, hbeq,
    settled_inter_full _ _, fun hsettled ↦ hwritten'.trans (oneOf_readWithin hsub hco hsettled)⟩

end domain

/-! ## Any attribute -/

/-- **A set of discrete values is read as it is written.**  What is read is settled, and it is
written in the same way again if the set was settled. -/
theorem exists_readsAs {domain : Option (Distinct Scalar)} (hk : ctx.kind? a = some k)
    (hk' : k ≠ .numeric) (hfull : ctx.full? a = some (.discrete (.full domain)))
    (hplain : ctx.Plain) (hadmits : ∀ s ∈ d.values.toList, k.Admits s)
    (hd : (ValueSet.discrete d).ProperDemand r a) :
    ∃ d' : DiscreteValues,
      (d.toPredicate a (.full domain)).ReadsAs ctx (.ofValues a (.discrete d')) ∧
        (d == d') = true ∧ d'.Settled (.full domain) ∧
        (d.Settled (.full domain) →
          d'.toPredicate a (.full domain) = d.toPredicate a (.full domain)) := by
  cases domain with
  | none =>
    exact ⟨d.resorted, readsAs_toPredicate hk hk' hfull hadmits hd, d.resorted_beq,
      Bool.noConfusion, fun _ ↦ toPredicate_resorted a d⟩
  | some domain =>
    have hdomain := hplain hk hfull
    have hco := cofinite_of_demand hfull rfl hd.demand
    cases hnull : d.null with
    | true =>
      obtain ⟨d', hreads, hbeq, hsettled, hwritten⟩ :=
        exists_readsAs_of_null hk hk' hfull hdomain hd hco hnull
      exact ⟨d', hreads, hbeq, hsettled, fun _ ↦ hwritten⟩
    | false => exact exists_readsAs_of_not_null hk hk' hfull hadmits hd hco hnull

end DiscreteValues

end RuleCoverage
