import RuleCoverage.Proofs.NormalForm.Assignments

/-!
# A feature that has no attributes

The simplest thing that predicates can be about is a feature on which every attribute is missing.
It is a reading of any interpretation whose domains hold plain literals of the right kind
(`Interpretation.Plain`), it knows every atom, and whatever follows from there being a reading at
all, such as that the terms of an expansion are in good order, follows from this one.
-/

set_option autoImplicit false

namespace RuleCoverage

theorem Scalar.plain_plain (s : Scalar) : s.plain.plain = s.plain := by
  cases s <;> rfl

/-- A literal that may stand in the value sets of an attribute of some kind. -/
structure Kind.Admits (k : Kind) (s : Scalar) : Prop where
  plain : s.plain = s
  fits : k.fits s = true

namespace Predicate

variable {atom : Predicate} {k : Kind}

/-- An atom about numbers says of nothing what it says of a null. -/
theorem MeansOfNumber.none_iff {m : Option EReal → Prop} (h : atom.MeansOfNumber m) :
    m none ↔ atom.holdsOfNull = true := by
  cases h with
  | compare => simp [Comparison.Holds, holdsOfNull]
  | isIn | between => simp [holdsOfNull]

theorem MeansOfKey.none_iff {m : Option Scalar.Key → Prop} (h : atom.MeansOfKey k m) :
    m none ↔ atom.holdsOfNull = true := by
  cases h <;> simp [holdsOfNull]

/-- What an atom says about nothing. -/
theorem Means.none_iff {m : Option Value → Prop} (h : atom.Means k m) :
    m none ↔ atom.holdsOfNull = true := by
  cases h with
  | isNull a => exact iff_of_true rfl rfl
  | number _ h => exact h.none_iff
  | key _ h => exact h.none_iff

end Predicate

namespace Interpretation

/-- Domains hold plain literals of the kinds of their attributes. -/
def Plain (ctx : Interpretation) : Prop :=
  ∀ {a k d}, ctx.kind? a = some k → ctx.full? a = some (.discrete d) →
    ∀ s ∈ d.values.toList, k.Admits s

variable {ctx : Interpretation}

/-- The feature that has no attributes. -/
def blank (hctx : ctx.Plain) : Reading ctx where
  value _ := none
  Knows _ := True
  truth atom := atom.holdsOfNull = true
  Compares a s := ∀ k, ctx.kind? a = some k → k.Admits s
  full_mem := null_mem_full
  compares_domain hfull s hs k hk := hctx hk hfull s hs
  truth_of_isMissing _ _ _ := Iff.rfl
  truth_of_values := by
    intro atom a vs _ hn hvs
    obtain ⟨k, m, -, hm, hmem⟩ := exists_meaning?_of_values hn hvs
    rw [hmem, (Predicate.means_iff.2 hm).none_iff]
  compares_values := by
    intro atom a d _ hn hvs s hs k hk
    obtain ⟨hfits, t, -, -, -, rfl⟩ := literal_of_mem_values hn hk hvs s hs
    exact ⟨t.plain_plain, hfits⟩
  truth_congr _ _ _ _ _ _ h := by rw [Predicate.holdsOfNull_of_tag_eq h]
  knows_isNull _ := trivial
  knows_compare _ _ _ := trivial
  knows_isIn _ _ _ := trivial
  knows_between _ _ _ _ _ := trivial
  truth_eq _ _ _ := ⟨trivial, by simp [Predicate.holdsOfNull]⟩
  truth_ne _ _ _ := ⟨trivial, by simp [Predicate.holdsOfNull]⟩
  truth_isIn _ _ _ := ⟨trivial, by simp [Predicate.holdsOfNull, Distinct.not_hasKey_none]⟩

theorem knows_blank (hctx : ctx.Plain) (p : Predicate) : p.AllAtoms (blank hctx).Knows :=
  p.allAtoms_iff.2 fun _ _ _ ↦ trivial

end Interpretation

/-- A schema with texts and numbers for categories has plain domains. -/
theorem Schema.HasPlainCategories.plain {schema : Schema} (h : schema.HasPlainCategories) :
    schema.interpretation.Plain := by
  intro a k d hk hfull s hs
  by_cases hnum : k = .numeric
  · subst hnum
    rw [full?_numeric hk] at hfull
    cases hfull
  rw [full?_discrete hk hnum] at hfull
  cases hfull
  cases hdom : schema.domainOf a k with
  | none =>
    rw [hdom] at hs
    exact absurd hs (Distinct.not_mem_empty s)
  | some domain =>
    rw [hdom] at hs
    refine ⟨?_, fits_of_mem_domain h hdom s hs⟩
    cases k with
    | numeric | string => cases hdom
    | boolean =>
      cases hdom
      have hs' := Distinct.mem_of_mem_ofList hs
      simp only [List.mem_cons, List.not_mem_nil, or_false] at hs'
      rcases hs' with rfl | rfl <;> rfl
    | categorical =>
      cases hdom
      have hplain := h a s hs
      cases s <;> first | rfl | exact hplain.elim

end RuleCoverage
