import RuleCoverage.Proofs.NormalForm.Conservation
import RuleCoverage.Proofs.NormalForm.RoundTrip.Rereading

/-!
# What is written weighs no more than the terms

The predicate that a value set is written as is a disjunction of atoms, one for each alternative of
the set, or two conditions where all values but a few are left; so it weighs no more than the demand
does (`ValueSet.weight_toPredicate_le`).  The same follows for terms and for normal forms
(`Term.weight_disjunctionOf_le`).

The weights may be those of another interpretation, as long as this one gives the classes of atoms
that are read here the same demands.
-/

set_option autoImplicit false

namespace RuleCoverage

variable {ctx ctx' : Interpretation} {L : String → Prop} {S : Predicate → Prop}
  [DecidablePred S] {a : String}

/-! ## Single atoms -/

namespace Predicate

variable {p atom : Predicate} {ws : ValueSet} {negated : Bool}

/-- The predicate is an atom or the negation of one. -/
def IsAtomic : Predicate → Prop
  | .not p => p.IsAtom
  | p => p.IsAtom

theorem isAtomic_oneOf {values : Distinct Scalar} : (oneOf a values).IsAtomic := by
  rw [oneOf]
  split <;> trivial

theorem isAtomic_noneOf {values : Distinct Scalar} : (noneOf a values).IsAtomic := by
  rw [noneOf]
  split <;> trivial

theorem isAtomic_toPredicate {iv : Interval} :
    (iv.toPredicate a).IsAtomic := by
  rw [Interval.toPredicate]
  dsimp only
  split_ifs <;> trivial

variable (hgives : ∀ {k ws}, ctx'.Gives k ws → ctx.Gives k ws)

include hgives

/-- An atom that is read as a demand weighs what the demand does. -/
theorem IsAtomic.weight_le (hp : p.IsAtomic) (h : p.ReadsAs ctx' (.ofValues a ws)) :
    p.weight (ctx.weighting L) S false ≤ 2 * ws.alternatives := by
  have hatom : ∀ {atom : Predicate} {negated : Bool}, atom.IsAtom →
      expandAtom ctx' atom negated = .ok [.ofValues a ws] →
      atom.weight (ctx.weighting L) S negated ≤ 2 * ws.alternatives := by
    intro atom negated hatom h
    obtain ⟨hg, v, hv⟩ := gives_of_expandAtom h
    have hpos := ValueSet.alternatives_pos hv
    refine hatom.weight_le.trans ?_
    rw [Interpretation.weighting_literal, (hgives hg).classAlternatives_eq, Nat.max_eq_right hpos]
  cases p with
  | not p =>
    refine weight_not_le.trans (hatom hp ?_)
    cases p <;> first | exact hp.elim | exact h
  | always | never | and | or => exact hp.elim
  | bare | compare | isIn | between | isNull | test => exact hatom trivial h

end Predicate

/-! ## Value sets -/

section values

variable {r : Reading ctx'} (hgives : ∀ {k ws}, ctx'.Gives k ws → ctx.Gives k ws)

include hgives

namespace NumericValues

variable {ns : NumericValues}

theorem weight_nullPart_le (hk : ctx'.kind? a = some .numeric) (r : Reading ctx') (null : Bool) :
    ((Predicate.nullPart a null).map fun p ↦ p.weight (ctx.weighting L) S false).sum ≤
      2 * null.toNat := by
  cases null with
  | false => exact le_rfl
  | true =>
    have hatomic : (Predicate.isNull (.text a)).IsAtomic := trivial
    have hle := hatomic.weight_le (L := L) (S := S) hgives (readsAs_isNull r hk)
    rw [ValueSet.alternatives, alternatives_onlyNull] at hle
    simpa [Predicate.nullPart] using hle

theorem weight_parts_le (hk : ctx'.kind? a = some .numeric) (r : Reading ctx') :
    ((ns.parts a).map fun p ↦ p.weight (ctx.weighting L) S false).sum ≤
      2 * ns.intervals.size := by
  rw [parts]
  split
  · rename_i x y rest hpoints
    have hasc := IntervalSet.ascendingKeys_of_points? hpoints
    have hset := IntervalSet.intervals_points hasc (.refl _)
    have hmem : (ValueSet.numeric (points (x :: y :: rest))).Mem (some (.number x.toEReal)) :=
      (mem_points _ _).2 ⟨x, List.mem_cons_self, rfl⟩
    have hproper := properDemand (r := r) hk hmem (w := none) Bool.false_ne_true
    have hread := readsAs_isIn hk hasc hproper
    have hatomic : (Predicate.isIn (.text a) (.ofDoubles (x :: y :: rest))).IsAtomic := trivial
    have hle := hatomic.weight_le (L := L) (S := S) hgives hread
    have hsize : (points (x :: y :: rest)).intervals.size = ns.intervals.size := by
      rw [IntervalSet.size, points, hset, IntervalSet.map_point_of_points? hpoints,
        List.length_map, IntervalSet.size]
    rw [List.map_singleton, List.sum_singleton, ← hsize]
    exact hle.trans (by simp [ValueSet.alternatives, alternatives, points])
  · rw [List.map_map]
    refine (List.sum_le_card_nsmul _ 2 fun n hn ↦ ?_).trans ?_
    · obtain ⟨iv, hiv, rfl⟩ := List.mem_map.1 hn
      have hne := ns.intervals.canonical.nonempty iv hiv
      have hreread : iv.reread.lowCut < iv.reread.highCut := by
        obtain ⟨hlow, hhigh⟩ := (Interval.beq_iff _ _).1 iv.reread_beq
        rwa [hlow, hhigh]
      have hle := Predicate.isAtomic_toPredicate.weight_le (L := L) (S := S) hgives
        (Interval.readsAs_toPredicate r hk hne)
      rwa [ValueSet.alternatives, alternatives_ofInterval hreread] at hle
    · rw [List.length_map, smul_eq_mul, Nat.mul_comm, IntervalSet.size]

theorem weight_toPredicate_le (hk : ctx'.kind? a = some .numeric)
    (hd : (ValueSet.numeric ns).ProperDemand r a) :
    (ns.toPredicate a).weight (ctx.weighting L) S false ≤ 2 * ns.alternatives := by
  by_cases h : ns.HasHoles
  · obtain ⟨hnull, hole, holes, hpoints⟩ := h
    have hread := readsAs_toPredicate hk hd
    rw [toPredicate_of_holes hnull hpoints] at hread ⊢
    rw [← alternatives_congr ns.reread_beq]
    exact Predicate.isAtomic_noneOf.weight_le hgives hread
  · obtain ⟨v, hv⟩ := hd.demand.nonempty
    have hpos := ValueSet.alternatives_pos hv
    rw [ValueSet.alternatives] at hpos
    rw [toPredicate_of_not_hasHoles h]
    refine Predicate.weight_disjunction_le (by omega) ?_
    have hnull := weight_nullPart_le (L := L) (S := S) hgives hk r ns.null
    have hparts : ((ns.parts a).map (·.weight (ctx.weighting L) S false)).sum ≤ _ :=
      weight_parts_le hgives hk r
    rw [List.map_append, List.sum_append, alternatives, Nat.mul_add]
    exact Nat.add_le_add hnull hparts

end NumericValues

namespace DiscreteValues

variable {d : DiscreteValues} {k : Kind}

/-- An atom that is read as one alternative weighs two at most. -/
theorem weight_le_two {p : Predicate} {ws : ValueSet} (hp : p.IsAtomic) (hws : ws.alternatives = 1)
    (hread : p.ReadsAs ctx' (.ofValues a ws)) : p.weight (ctx.weighting L) S false ≤ 2 := by
  have hle := hp.weight_le (L := L) (S := S) hgives hread
  rwa [hws] at hle

section everything

variable (hk : ctx'.kind? a = some k) (hk' : k ≠ .numeric)
  (hfull : ctx'.full? a = some (.discrete (.full none))) {values : Distinct Scalar}

include hk hk' hfull

theorem weight_isNull_le (r : Reading ctx') :
    (Predicate.isNull (.text a)).weight (ctx.weighting L) S false ≤ 2 := by
  have hatomic : (Predicate.isNull (.text a)).IsAtomic := trivial
  exact weight_le_two hgives hatomic rfl (readsAs_isNull hk hk' hfull r).1

theorem weight_not_isNull_le (r : Reading ctx') :
    (Predicate.not (.isNull (.text a))).weight (ctx.weighting L) S false ≤ 2 := by
  have hatomic : (Predicate.not (.isNull (.text a))).IsAtomic := trivial
  exact weight_le_two hgives hatomic rfl (readsAs_not_isNull hk hk' hfull r).1

theorem weight_oneOf_le (hvalues : (ValueSet.discrete (.only values)).Writable r a)
    (hadmits : ∀ s ∈ values.toList, k.Admits s) (hne : ¬ values.isEmpty = true) :
    (Predicate.oneOf a values).weight (ctx.weighting L) S false ≤ 2 := by
  obtain ⟨hread, hd⟩ := readsAs_oneOf hk hk' hfull hvalues hadmits hne
  rw [Distinct.isEmpty_iff, not_forall_not] at hne
  obtain ⟨x, hx⟩ := hne
  have hparts := Distinct.parts_of_mem (Distinct.mem_resorted.2 hx)
  exact weight_le_two hgives Predicate.isAtomic_oneOf
    (by simp [ValueSet.alternatives, alternatives, only, hparts]) hread

theorem weight_noneOf_le (hvalues : (ValueSet.discrete (.only values)).Writable r a)
    (hadmits : ∀ s ∈ values.toList, k.Admits s) (hne : ¬ values.isEmpty = true) :
    (Predicate.noneOf a values).weight (ctx.weighting L) S false ≤ 2 :=
  weight_le_two hgives Predicate.isAtomic_noneOf (by simp [ValueSet.alternatives, alternatives])
    (readsAs_noneOf hk hk' hfull hvalues hadmits hne).1

omit hk hk' hfull hgives in
theorem alternatives_pos_of_demand (hd : (ValueSet.discrete d).ProperDemand r a) :
    0 < 2 * d.alternatives := by
  obtain ⟨v, hv⟩ := hd.demand.nonempty
  have hpos := ValueSet.alternatives_pos hv
  rw [ValueSet.alternatives] at hpos
  omega

/-- A demand that lists no values is written as a test for null. -/
theorem weight_toPredicate_le_of_isEmpty (hempty : d.values.isEmpty = true)
    (hd : (ValueSet.discrete d).ProperDemand r a) :
    (d.toPredicate a (.full none)).weight (ctx.weighting L) S false ≤ 2 * d.alternatives := by
  have hpos := alternatives_pos_of_demand hd
  have hparts : d.values.parts = 0 := by rw [Distinct.parts, hempty]; rfl
  obtain ⟨values, cofinite, null⟩ := d
  rw [toPredicate_everything, if_pos hempty, if_pos hempty]
  cases cofinite with
  | true =>
    rw [if_pos rfl, alternatives_of_cofinite rfl, hparts]
    refine Predicate.weight_conjunction_le.trans ?_
    cases null
    · simpa using weight_not_isNull_le hgives hk hk' hfull r
    · simp
  | false =>
    rw [if_neg Bool.false_ne_true]
    refine Predicate.weight_disjunction_le hpos ?_
    rw [alternatives_of_finite rfl, hparts]
    cases null
    · simp [Predicate.nullPart]
    · simpa [Predicate.nullPart] using weight_isNull_le hgives hk hk' hfull r

/-- Where there is no domain, the parts that a set is written in weigh no more than the set. -/
theorem weight_toPredicate_le (hadmits : ∀ s ∈ d.values.toList, k.Admits s)
    (hd : (ValueSet.discrete d).ProperDemand r a) :
    (d.toPredicate a (.full none)).weight (ctx.weighting L) S false ≤ 2 * d.alternatives := by
  by_cases hne : d.values.isEmpty = true
  · exact weight_toPredicate_le_of_isEmpty hgives hk hk' hfull hne hd
  have hpos := alternatives_pos_of_demand hd
  have hparts : d.values.parts = 1 := by
    rw [Distinct.isEmpty_iff, not_forall_not] at hne
    exact Distinct.parts_of_mem hne.choose_spec
  obtain ⟨values, cofinite, null⟩ := d
  have hvalues : (ValueSet.discrete (.only values)).Writable r a := by
    rintro e ⟨⟩ x hx
    exact hd.demand.writable _ rfl x hx
  rw [toPredicate_everything, if_neg hne, if_neg hne]
  cases cofinite with
  | true =>
    have hnone := weight_noneOf_le (L := L) (S := S) hgives hk hk' hfull hvalues hadmits hne
    rw [if_pos rfl, alternatives_of_cofinite rfl, hparts]
    refine Predicate.weight_conjunction_le.trans ?_
    cases null
    · simpa using Nat.mul_le_mul (weight_not_isNull_le hgives hk hk' hfull r) hnone
    · simpa using hnone
  | false =>
    have hone := weight_oneOf_le (L := L) (S := S) hgives hk hk' hfull hvalues hadmits hne
    rw [if_neg Bool.false_ne_true]
    refine Predicate.weight_disjunction_le hpos ?_
    rw [alternatives_of_finite rfl, hparts]
    cases null
    · simpa [Predicate.nullPart] using hone
    · simpa [Predicate.nullPart] using
        Nat.add_le_add (weight_isNull_le hgives hk hk' hfull r) hone

end everything

end DiscreteValues

omit hgives in
/-- A set of values from a domain is written as an atom. -/
theorem DiscreteValues.isAtomic_toPredicate {d : DiscreteValues} {domain : Distinct Scalar}
    (hfull : ctx'.full? a = some (.discrete (.full (some domain))))
    (hd : (ValueSet.discrete d).ProperDemand r a) :
    (d.toPredicate a (.full (some domain))).IsAtomic := by
  have hco := cofinite_of_demand hfull rfl hd.demand
  rw [toPredicate_domain a hco (fun hnull ↦ not_isEmpty_diff hfull hco hnull hd)
    fun hnull ↦ not_isEmpty_values hco hnull hd.demand]
  split
  · exact Predicate.isAtomic_noneOf
  · exact Predicate.isAtomic_oneOf

/-- **The predicate that a demand is written as weighs no more than the demand.** -/
theorem ValueSet.weight_toPredicate_le (hctx : ctx'.Plain) {vs : ValueSet}
    (hd : vs.ProperDemand (Interpretation.blank hctx) a) (hsole : L a → S (vs.toPredicate ctx' a)) :
    (vs.toPredicate ctx' a).weight (ctx.weighting L) S false ≤ (ctx.weighting L).values a vs := by
  by_cases ha : L a
  · rw [Predicate.weight_of_sole (hsole ha), Interpretation.weighting_values_of_light ha]
  rw [Interpretation.weighting_values ha]
  cases hd.demand.full.shaped with
  | numeric hk => exact NumericValues.weight_toPredicate_le hgives hk hd
  | @discrete d k domain hk hk' hfull =>
    have hrender : (discrete d).toPredicate ctx' a = d.toPredicate a (.full domain) := by
      rw [toPredicate, hfull]
    cases domain with
    | none =>
      rw [hrender]
      exact DiscreteValues.weight_toPredicate_le hgives hk hk' hfull
        (fun s hs ↦ hd.demand.writable d rfl s hs k hk) hd
    | some domain =>
      obtain ⟨vs', hvs', hread⟩ := exists_readsAs hctx hd
      rw [alternatives_congr hvs'.beq]
      rw [hrender] at hread ⊢
      exact (DiscreteValues.isAtomic_toPredicate hfull hd).weight_le hgives hread

end values

/-! ## Terms -/

namespace Term

variable {t : Term} {ts : List Term} (hgives : ∀ {k ws}, ctx'.Gives k ws → ctx.Gives k ws)
  (hctx : ctx'.Plain)

include hgives

theorem weight_toPredicate_le (ht : t.Valid (Interpretation.blank hctx))
    (hproper : t.Proper (Interpretation.blank hctx))
    (hsole : ∀ c ∈ t.constraints, L c.1 → S (c.2.toPredicate ctx' c.1)) :
    (t.toPredicate ctx').weight (ctx.weighting L) S false ≤ t.weight (ctx.weighting L) := by
  rw [toPredicate_eq]
  refine Predicate.weight_conjunction_le.trans ?_
  rw [List.map_append, List.prod_append, List.map_map, List.map_map, weight,
    ← literalsWeight_perm t.sortedLiterals_perm]
  refine Nat.mul_le_mul ?_ ?_
  · exact List.prod_le_prod' fun c hc ↦
      ValueSet.weight_toPredicate_le hgives hctx (hproper c hc) (hsole c hc)
  · refine List.prod_le_prod' fun l hl ↦ ?_
    have hatom := (ht.opaques l (t.sortedLiterals_perm.mem_iff.1 hl)).member.isAtom
    show l.toPredicate.weight (ctx.weighting L) S false ≤ _
    rw [OpaqueLiteral.toPredicate, OpaqueLiteral.class_]
    cases hp : l.positive with
    | true => exact hatom.weight_le
    | false => exact Predicate.weight_not_le.trans hatom.weight_le

/-- **What is written weighs no more than the terms.** -/
theorem weight_disjunctionOf_le (hts : AllValid (Interpretation.blank hctx) ts)
    (hproper : ∀ t ∈ ts, t.Proper (Interpretation.blank hctx)) (hne : ts ≠ [])
    (hsole : ∀ t ∈ ts, ∀ c ∈ t.constraints, L c.1 → S (c.2.toPredicate ctx' c.1)) :
    (disjunctionOf ctx' ts).weight (ctx.weighting L) S false ≤
      totalWeight (ctx.weighting L) ts := by
  have hle : ∀ t ∈ ts, (t.toPredicate ctx').weight (ctx.weighting L) S false ≤
      t.weight (ctx.weighting L) :=
    fun t ht ↦ weight_toPredicate_le hgives hctx (hts t ht) (hproper t ht) (hsole t ht)
  have hperm := inOrder_perm ctx' ts
  obtain ⟨t, ht⟩ := List.exists_mem_of_ne_nil ts hne
  rw [disjunctionOf, sorted_map_toPredicate]
  refine Predicate.weight_disjunction_le
    ((weight_pos (hts t ht)).trans (weight_le_totalWeight ht)) ?_
  rw [List.map_map, ← totalWeight_perm hperm]
  exact List.sum_le_sum fun t ht ↦ hle t (hperm.mem_iff.1 ht)

end Term

end RuleCoverage
