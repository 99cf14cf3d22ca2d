import RuleCoverage.Proofs.NormalForm.Satisfiability

/-!
# Predicates that always hold

What is simplified to `always` is satisfied by every assignment, however much is spent on the search
for it.  Conversely, a predicate that every assignment satisfies is simplified to `always`, if the
search for its negation stays within the budget (`Predicate.simplify_eq_always`): the terms that the
negation is expanded into hold of some assignment each, so there are none.
-/

set_option autoImplicit false

namespace RuleCoverage

namespace Predicate

variable {schema : Schema} {p q : Predicate} {effort : Effort}

/-- The search for what always holds is made, and comes to an end: the negation of the predicate's
terms can be expanded within the budget. -/
def SearchEnds (p : Predicate) (schema : Schema) (effort : Effort) : Prop :=
  effort.detectsTautologies = true ∧
    ∃ ts us, p.expand schema.interpretation false = .ok ts ∧
      Term.negateAll? schema.interpretation effort.budget ts = some us

/-- A pass finds out that every assignment satisfies a predicate, if its search ends. -/
theorem simplifyOnce_eq_always (hcat : schema.HasPlainCategories)
    (hends : p.SearchEnds schema effort) (hall : ∀ α : Assignment schema, p.IsTrue α.truth) :
    simplifyOnce (some schema) effort p = .ok .always := by
  obtain ⟨hdetects, ts, us, hts, hus⟩ := hends
  have hspec := fun α : Assignment schema ↦
    expand_spec (r := α.reading hcat) p (allAtoms_true p) hts
  -- the terms of the negation could be satisfied
  have hnil : us = [] := by
    by_contra hne
    obtain ⟨u, hu⟩ := List.exists_mem_of_ne_nil us hne
    have hneg := fun α : Assignment schema ↦ Term.negateAll?_spec (hspec α).1 hus
    obtain ⟨β, hβ⟩ := ((hneg default).1 u hu).exists_assignment
    exact (hneg β).2.1 ⟨u, hu, hβ⟩ ((hspec β).2.2 (iff_of_true (hall β) rfl))
  have htautology : isTautology schema.interpretation effort ts = true := by
    rw [isTautology, hdetects, hus, hnil]
    rfl
  have hne : ts.isEmpty = false := by
    rw [← Bool.not_eq_true, List.isEmpty_iff, expand_eq_nil_iff hcat hts]
    exact fun h ↦ h ⟨default, hall default⟩
  rw [simplifyOnce_of_expand rfl hts, hne, htautology, Bool.or_true]
  rfl

/-- **A predicate that is simplified to `always` is satisfied by every assignment**, whatever the
search for this may cost, **and every assignment satisfies no other predicate** for which the search
ends. -/
theorem simplify_eq_always (hcat : schema.HasPlainCategories)
    (h : p.simplify (some schema) effort = .ok q) :
    (q = .always → ∀ α : Assignment schema, p.IsTrue α.truth) ∧
      (p.SearchEnds schema effort → (∀ α : Assignment schema, p.IsTrue α.truth) → q = .always) := by
  constructor
  · rintro rfl α
    have hstep : ∀ x y, (x.IsTrue α.truth → p.IsTrue α.truth) →
        simplifyOnce (some schema) effort x = .ok y → (y.IsTrue α.truth → p.IsTrue α.truth) :=
      fun x y hx hy htrue ↦ hx ((isTrue_simplifyOnce hcat hy α).1 htrue)
    exact settle_induction hstep (by simp) id h trivial
  · intro hends hall
    have hfirst := simplifyOnce_eq_always hcat hends hall
    have hsettled := settle_of_pass_fixed simplifyOnce_always (fun _ ↦ beq_always_iff) hfirst 15
    exact Except.ok.inj (h.symm.trans hsettled)

/-- A river is deep, or not deep, or no river: no two of the terms can be merged, and that they
leave nothing out is found by expanding their negation. -/
theorem simplify_deep_or_not_deep_or_no_river :
    let schema := Schema.ofCategories "class" (.ofList [.text "river", .text "canal"])
    let river := compare (.text "class") .eq (.text "river")
    let deep := test ⟨"is_deep", false, "deep"⟩
    (or (and river deep) (or (not deep) (not river))).simplify (some schema) {} = .ok .always := by
  intro schema river deep
  have hcat : schema.HasPlainCategories := by
    refine Schema.hasPlainCategories_ofCategories fun s hs ↦ ?_
    have hs' := Distinct.mem_of_mem_ofList hs
    simp only [List.mem_cons, List.not_mem_nil, or_false] at hs'
    rcases hs' with rfl | rfl <;> trivial
  let p := or (and river deep) (or (not deep) (not river))
  have hsome : (p.simplify (some schema) {}).toOption.isSome = true := by decide +kernel
  obtain ⟨q, hq⟩ := Option.isSome_iff_exists.1 hsome
  have hq := eq_ok_of_toOption hq
  have hends : p.SearchEnds schema {} := by
    have hsearch : ((p.expand schema.interpretation false).toOption.bind
        (Term.negateAll? schema.interpretation (Effort.budget {}))).isSome = true := by
      decide +kernel
    obtain ⟨us, hus⟩ := Option.isSome_iff_exists.1 hsearch
    obtain ⟨ts, hts, hus⟩ := Option.bind_eq_some_iff.1 hus
    exact ⟨rfl, ts, us, eq_ok_of_toOption hts, hus⟩
  have hall : ∀ α : Assignment schema, p.IsTrue α.truth := by
    intro α
    simp only [p, IsTrue]
    tauto
  rw [show p.simplify (some schema) {} = .ok q from hq, (simplify_eq_always hcat hq).2 hends hall]

end Predicate

end RuleCoverage
