import RuleCoverage.Proofs.NormalForm.Conservation
import RuleCoverage.Proofs.NormalForm.Passes
import RuleCoverage.Proofs.NormalForm.RoundTrip.Weights
import RuleCoverage.Proofs.NormalForm.Uniform

/-!
# Simplification is idempotent

Where it is known beforehand how the attributes are read, a normal form is read as it is written.
One detail takes a second pass: values that are all of a domain may be spelled in another way than
the domain is, and they are not after they have been read once more (`ValueSet.Settled`).

So the passes end after the second one, unless the predicate itself comes back then.  It does not,
if the first pass has changed it: a predicate that comes back has lost no weight, and terms that are
spelled otherwise than their domain come from a union, in which weight is lost
(`Predicate.settled_or_lt_expand`).
-/

set_option autoImplicit false

namespace RuleCoverage

variable {ctx : Interpretation} {r : Reading ctx} {a : String}

/-! ## Unions that are spelled anew -/

namespace DiscreteValues

variable {d : DiscreteValues}

/-- A demand that the missing value is among does not hold the whole domain: it would be everything.
-/
theorem settled_of_null (hd : (ValueSet.discrete d).ProperDemand r a) (hnull : d.null = true) :
    (ValueSet.discrete d).Settled ctx a := by
  rintro _ full ⟨⟩ hfull hco hdco hall
  obtain ⟨w, hw, hnot⟩ := hd.exists_not_mem hfull
  rw [ValueSet.Mem, mem_iff_of_not_cofinite hco] at hw
  rw [ValueSet.Mem, mem_iff_of_not_cofinite hdco, hnull, not_or] at hnot
  rcases hw with ⟨-, rfl⟩ | ⟨s, hs, hkey⟩
  · exact absurd ⟨rfl, rfl⟩ hnot.1
  · obtain ⟨t, ht, hts⟩ := (Distinct.subset_iff Scalar.decidedBy_key (fun _ _ ↦ trivial)
      fun _ _ ↦ trivial).1 hall _ ⟨s, hs, rfl⟩
    exact absurd ⟨t, ht, (congrArg some hts).trans hkey⟩ hnot.2

theorem alternatives_le_one (hco : d.cofinite = false) (hnull : d.null = false) :
    d.alternatives ≤ 1 := by
  rw [alternatives_of_finite hco, hnull, Bool.toNat_false, Nat.zero_add]
  exact Distinct.parts_le_one d.values

end DiscreteValues

namespace ValueSet

variable {us vs : ValueSet}

/-- The union of two demands is spelled like the domain of the attribute, unless it has fewer
alternatives than they have. -/
theorem settled_union_or_lt (hu : us.Demand r a) (hv : vs.Demand r a)
    (h : (us.union vs).ProperDemand r a) : (us.union vs).Settled ctx a ∨
      (us.union vs).alternatives < us.alternatives + vs.alternatives := by
  cases us with
  | numeric ns => cases vs <;> exact .inl (settled_numeric _)
  | discrete d =>
    cases vs with
    | numeric ns => exact absurd (hu.sameShape hv) Bool.noConfusion
    | discrete e =>
      cases hnull : (d.union e).null with
      | true => exact .inl (DiscreteValues.settled_of_null h hnull)
      | false =>
        cases hco : (d.union e).cofinite with
        | true =>
          refine .inl ?_
          rintro _ full ⟨⟩ - - hco'
          cases hco.symm.trans hco'
        | false =>
          -- the union is one alternative, and so is each of the two at least
          have hunion := DiscreteValues.alternatives_le_one hco hnull
          have hpos := alternatives_pos hu.nonempty.choose_spec
          have hpos' := alternatives_pos hv.nonempty.choose_spec
          rw [alternatives] at hpos hpos'
          rw [union, alternatives, alternatives, alternatives]
          exact .inr (by omega)

end ValueSet

/-! ## Expansions that lose no weight are settled -/

namespace Term

theorem conserved_settled : Conserved r (ctx.weighting fun _ ↦ False)
    fun _ ts ↦ ∀ t ∈ ts, t.Settled ctx where
  append hs ht := List.forall_mem_append.2 ⟨hs, ht⟩
  conjunctions := by
    intro A B ss ts hss hts _ _ _ hs ht u hu
    simp only [conjunctions, List.mem_flatMap, List.mem_filterMap] at hu
    obtain ⟨s, hsm, t, htm, hu⟩ := hu
    have hboth := forall_conjoin? (C := fun a vs ↦ vs.Demand r a ∧ vs.Settled ctx a)
      (fun hus hvs hne ↦ ⟨hus.1.inter hvs.1 hne, ValueSet.Settled.inter hus.1 hvs.1 hvs.2⟩)
      (fun c hc ↦ ⟨(hss s hsm).1.constraints.demands c hc, hs s hsm c hc⟩)
      (fun c hc ↦ ⟨(hts t htm).1.constraints.demands c hc, ht t htm c hc⟩) hu
    exact fun c hc ↦ (hboth c hc).2
  merge := by
    intro A us s t rest m hperm hus hm hmp hle hsettled
    have hmem : ∀ u ∈ s :: t :: rest, u ∈ us := fun u hu ↦ hperm.mem_iff.2 hu
    have hs := hmem s (by simp)
    have ht := hmem t (by simp)
    refine List.forall_mem_append.2 ⟨fun u hu ↦ hsettled u (hmem u (by simp [hu])),
      List.forall_mem_singleton.2 fun c hc ↦ ?_⟩
    rcases merge?_weight (w := ctx.weighting fun _ ↦ False) (hus s hs).1 (hus t ht).1 hm with
      hlt | ⟨a, vs, vs', k, hvs, hvs', hcs, hk, hsw, htw, hmw⟩
    · exact absurd hle (Nat.not_le.2 hlt)
    rcases hcs c hc with hc | rfl
    · exact hsettled s hs c hc
    have hdemand : vs.Demand r a := (hus s hs).1.constraints.demands _ hvs
    have hdemand' : vs'.Demand r a := (hus t ht).1.constraints.demands _ hvs'
    refine (ValueSet.settled_union_or_lt hdemand hdemand' (hmp _ hc)).resolve_right fun hlt ↦
      Nat.not_lt.2 hle ?_
    have hvalues : ∀ ws, (ctx.weighting fun _ ↦ False).values a ws = 2 * ws.alternatives :=
      fun _ ↦ Interpretation.weighting_values id
    rw [hsw, htw, hmw, ← Nat.mul_add]
    refine Nat.mul_lt_mul_of_pos_left ?_ hk
    rw [hvalues, hvalues, hvalues]
    omega

end Term

namespace Predicate

variable {p q : Predicate} {ts us : List Term}

/-- The terms of a predicate weigh less than the predicate, or they are settled. -/
theorem settled_or_lt_expand (hctx : ctx.Plain) (h : p.expand ctx false = .ok ts) :
    Term.WeighsWithin (ctx.weighting fun _ ↦ False)
      (p.weight (ctx.weighting fun _ ↦ False) (fun _ ↦ False) false)
      (fun ts ↦ ∀ t ∈ ts, t.Settled ctx) ts := by
  have hsettled : ∀ t ∈ [Term.always], t.Settled ctx :=
    List.forall_mem_singleton.2 (List.forall_mem_nil _)
  refine weighsWithin_expand (P := fun _ ↦ True) (r := Interpretation.blank hctx) ?_ False.elim
    Term.conserved_settled hsettled hsettled (fun _ ↦ trivial) p
    (p.allAtoms_iff.2 fun _ _ _ ↦ trivial) h
  intro atom negated ts hatom _ h
  refine weighsWithin_expandAtom id (fun _ ↦ hsettled) ?_ (fun _ ↦ ?_) h
  · exact fun _ hfull _ ↦ List.forall_mem_singleton.2 (List.forall_mem_singleton.2
      (ValueSet.settled_inter_full hfull))
  · exact List.forall_mem_singleton.2 (List.forall_mem_nil _)

end Predicate

/-! ## Reading once more -/

namespace Term

variable {w : Weighting} {t t' : Term} {ts ts' : List Term}

/-- What a term is read as weighs the same. -/
theorem Rereads.weight_eq (h : Rereads ctx t t') : t'.weight w = t.weight w := by
  have hcs : constraintsWeight w t'.constraints = constraintsWeight w t.constraints := by
    have hcs := h.corresponds.constraints
    generalize t.constraints = cs at hcs ⊢
    generalize t'.constraints = cs' at hcs ⊢
    induction hcs with
    | nil => rfl
    | cons hc _ ih =>
      rw [constraintsWeight_cons, constraintsWeight_cons, ih, ← hc.1, w.values_congr hc.2.beq]
  rw [weight, weight, hcs, h.literals, literalsWeight_perm t.sortedLiterals_perm]

theorem totalWeight_rereads (h : List.Forall₂ (Rereads ctx) (inOrder ctx ts) ts') :
    totalWeight w ts' = totalWeight w ts := by
  rw [← totalWeight_perm (inOrder_perm ctx ts)]
  generalize inOrder ctx ts = us at h ⊢
  induction h with
  | nil => rfl
  | cons ht _ ih => rw [totalWeight_cons, totalWeight_cons, ih, ht.weight_eq]

theorem settled_rereads (h : List.Forall₂ (Rereads ctx) (inOrder ctx ts) ts') :
    ∀ t ∈ ts', t.Settled ctx := by
  intro t' ht'
  obtain ⟨t, -, ht⟩ := exists_left_of_mem h ht'
  exact ht.settled

/-- Settled terms are written in the same way again. -/
theorem disjunctionOf_rereads (hts : ∀ t ∈ ts, t.Settled ctx)
    (h : List.Forall₂ (Rereads ctx) (inOrder ctx ts) ts') :
    disjunctionOf ctx ts' = disjunctionOf ctx ts := by
  refine disjunctionOf_congr ?_
  have hsettled : ∀ t ∈ inOrder ctx ts, t.Settled ctx :=
    fun t ht ↦ hts t ((inOrder_perm ctx ts).mem_iff.1 ht)
  generalize inOrder ctx ts = us at h hsettled
  induction h with
  | nil => exact .nil
  | cons ht _ ih =>
    rw [List.forall_mem_cons] at hsettled
    exact .cons (ht.toPredicate_eq hsettled.1) (ih hsettled.2)

end Term

namespace Predicate

variable {schema : Schema} {effort : Effort} {p q z : Predicate} {ts : List Term} {n : Nat}

section schema

variable (hcat : schema.HasPlainCategories)

include hcat

/-- The second pass finds that everything holds, or it writes what the first one has written as it
reads it. -/
theorem simplifyOnce_disjunctionOf_cases (hts : p.expand schema.interpretation false = .ok ts)
    (h : simplifyOnce (some schema) effort (Term.disjunctionOf schema.interpretation ts) = .ok q) :
    q = .always ∨ ∃ ts', (Term.disjunctionOf schema.interpretation ts).expand schema.interpretation
        false = .ok ts' ∧
      List.Forall₂ (Term.Rereads schema.interpretation)
        (Term.inOrder schema.interpretation ts) ts' ∧
      q = Term.disjunctionOf schema.interpretation ts' := by
  obtain ⟨ts', hread, hrereads⟩ := exists_reread hcat.plain hts
  obtain ⟨ctx, us, hctx, hus, hq⟩ := simplifyOnce_cases h
  cases hctx
  cases hus.symm.trans hread
  rcases hq with ⟨rfl, rfl⟩ | ⟨-, -, rfl⟩ | ⟨-, rfl⟩
  · exact .inr ⟨[], hread, hrereads, (Term.disjunctionOf_nil _).symm⟩
  · exact .inl rfl
  · exact .inr ⟨ts', hread, hrereads, rfl⟩

/-- What settled terms are written as is kept by a pass, unless it is found always to hold. -/
theorem stays_of_settled (hts : p.expand schema.interpretation false = .ok ts)
    (hsettled : ∀ t ∈ ts, t.Settled schema.interpretation) :
    (Term.disjunctionOf schema.interpretation ts).Stays (some schema) effort := by
  obtain ⟨ts', hread, hrereads⟩ := exists_reread hcat.plain hts
  exact stays_of_disjunctionOf hcat.plain rfl hread (Term.disjunctionOf_rereads hsettled hrereads)

/-- What is written weighs no more than the terms that were read. -/
theorem weight_disjunctionOf_le_totalWeight (hts : p.expand schema.interpretation false = .ok ts)
    (hne : ts ≠ []) : (Term.disjunctionOf schema.interpretation ts).weight
      (schema.interpretation.weighting fun _ ↦ False) (fun _ ↦ False) false ≤
        Term.totalWeight (schema.interpretation.weighting fun _ ↦ False) ts := by
  have hknows := Interpretation.knows_blank hcat.plain p
  exact Term.weight_disjunctionOf_le id hcat.plain (expand_spec p hknows hts).1
    (proper_expand p hknows hts) hne fun _ _ _ _ ↦ False.elim

/-- A predicate does not come back after the second pass or a later one, if the second pass has
changed something other than that it has found out that everything holds. -/
theorem stays_of_passes_back {x y : Predicate} (hy : simplifyOnce (some schema) effort x = .ok y)
    (h : Passes (simplifyOnce (some schema) effort) n y z) (hxz : (x == z) = true) :
    y.Stays (some schema) effort := by
  obtain ⟨ctx, ts, hctx, hts, hcases⟩ := simplifyOnce_cases hy
  cases hctx
  rcases hcases with ⟨-, rfl⟩ | ⟨-, -, rfl⟩ | ⟨hne, rfl⟩
  · exact stays_of_fixed simplifyOnce_never
  · exact stays_of_fixed simplifyOnce_always
  obtain ⟨ts', hread, hrereads⟩ := exists_reread hcat.plain hts
  have hne' : ts' ≠ [] := by
    rintro rfl
    have hlen := hrereads.length_eq
    rw [(Term.inOrder_perm _ ts).length_eq] at hlen
    exact hne (List.eq_nil_of_length_eq_zero hlen)
  -- the predicate that has come back is as light as the terms, so the first pass has lost no weight
  have hback : z = .always ∨ z.weight (schema.interpretation.weighting fun _ ↦ False)
      (fun _ ↦ False) false ≤
        Term.totalWeight (schema.interpretation.weighting fun _ ↦ False) ts := by
    cases n with
    | zero =>
      obtain rfl : _ = z := h
      exact .inr (weight_disjunctionOf_le_totalWeight hcat hts hne)
    | succ n =>
      obtain ⟨y', hy', h⟩ := h
      rcases simplifyOnce_disjunctionOf_cases hcat hts hy' with rfl | ⟨us, hus, hrereads', rfl⟩
      · exact .inl (h.eq_of_fixed simplifyOnce_always)
      cases hread.symm.trans hus
      rcases (stays_of_settled hcat hread (Term.settled_rereads hrereads)).eq_or_of_passes h with
        rfl | rfl
      · exact .inl rfl
      · rw [← Term.totalWeight_rereads hrereads]
        exact .inr (weight_disjunctionOf_le_totalWeight hcat hread hne')
  rcases hback with rfl | hle
  · rw [eq_always_of_beq hxz] at hy
    rw [← Except.ok.inj (simplifyOnce_always.symm.trans hy)]
    exact stays_of_fixed simplifyOnce_always
  rw [← weight_congr (fun _ ↦ Iff.rfl) hxz] at hle
  rcases settled_or_lt_expand hcat.plain hts with hlt | ⟨-, hsettled⟩
  · exact absurd hle (Nat.not_le.2 hlt)
  · exact stays_of_settled hcat hts hsettled

theorem simplifyOnce_of_passes_back {x y : Predicate}
    (hy : simplifyOnce (some schema) effort x = .ok y)
    (h : Passes (simplifyOnce (some schema) effort) (n + 1) y z) (hxz : (x == z) = true) :
    simplifyOnce (some schema) effort y = .ok y :=
  (stays_of_passes_back hcat hy h hxz).eq_of_passes_back hy h hxz

/-- Under a schema the passes end at a predicate that one more pass leaves alone. -/
theorem simplifyOnce_of_passes (h : Passes (simplifyOnce (some schema) effort) (n + 3) p z) :
    simplifyOnce (some schema) effort z = .ok z := by
  obtain ⟨y, hy, y', hy', h⟩ := h
  obtain ⟨ctx, ts, hctx, hts, hcases⟩ := simplifyOnce_cases hy
  cases hctx
  rcases hcases with ⟨-, rfl⟩ | ⟨-, -, rfl⟩ | ⟨hne, rfl⟩
  · cases simplifyOnce_never.symm.trans hy'
    exact h.fixed simplifyOnce_never
  · cases simplifyOnce_always.symm.trans hy'
    exact h.fixed simplifyOnce_always
  rcases simplifyOnce_disjunctionOf_cases hcat hts hy' with rfl | ⟨ts', hread, hrereads, rfl⟩
  · exact h.fixed simplifyOnce_always
  · exact (stays_of_settled hcat hread (Term.settled_rereads hrereads)).fixed_of_passes h

/-- **Under a schema a simplified predicate is its own simplification.** -/
theorem simplify_idempotent (h : p.simplify (some schema) effort = .ok q) :
    q.simplify (some schema) effort = .ok q := by
  have hstable : Stable (simplifyOnce (some schema) effort) q :=
    stable_of_settle (simplifyOnce_of_passes_back hcat) (simplifyOnce_of_passes hcat) h
  exact hstable.settle_eq 15

end schema

/-- Rivers that are no canals are rivers, and there is nothing more to say. -/
theorem simplify_idempotent_rivers : ∃ q,
    (and (compare (.text "class") .eq (.text "river"))
      (compare (.text "class") .ne (.text "canal"))).simplify
        (some (.ofKind .string ["class"])) {} = .ok q ∧
    (q == compare (.text "class") .eq (.text "river")) = true ∧
    (Schema.ofKind .string ["class"]).HasPlainCategories ∧
    q.simplify (some (.ofKind .string ["class"])) {} = .ok q := by
  have hrivers : ((and (compare (.text "class") .eq (.text "river"))
      (compare (.text "class") .ne (.text "canal"))).simplify
        (some (.ofKind .string ["class"])) {}).toOption.any
          (· == compare (.text "class") .eq (.text "river")) = true := by
    decide +kernel
  obtain ⟨q, hq, hrivers⟩ := (Option.any_eq_true _ _).1 hrivers
  have hcat := Schema.hasPlainCategories_ofKind .string ["class"]
  exact ⟨q, eq_ok_of_toOption hq, hrivers, hcat, simplify_idempotent hcat (eq_ok_of_toOption hq)⟩

end Predicate

end RuleCoverage
