import RuleCoverage.Proofs.NormalForm.Blank
import RuleCoverage.Proofs.NormalForm.Irreducible
import RuleCoverage.Proofs.NormalForm.Proper

/-!
# Well-formed terms

A term is well-formed when none of its demands is idle or hopeless by itself: each constraint allows
some values of its attribute but not all of them, and no atom is demanded both as it is and negated.
That can be read off the term and the interpretation, so it makes sense for terms that come from
anywhere.

What such a term says does not take a `Reading` either.  A `Valuation` has a value for each
attribute, one of those that the attribute may have, and a truth value for each atom; the atoms of a
term are opaque, so their truth has nothing to do with the values.

## What is here

* `Valuation.Satisfies` — what it is for a valuation to satisfy a term.
* `Term.WellFormed`, `Term.WellFormed.merge?` — well-formed terms, and merging them.
* `Term.isMeaning_satisfies` — satisfaction goes along with equality, strength and merging, whatever
  the interpretation.
-/

set_option autoImplicit false

namespace RuleCoverage

variable {ctx : Interpretation}

/-! ## Valuations -/

/-- A value for each attribute, among those that the interpretation supposes, and a truth value for
each atom.  Equal atoms have the same one. -/
structure Valuation (ctx : Interpretation) where
  value : String → Option Value
  within : ∀ {a full}, ctx.full? a = some full → full.Mem (value a)
  free : Predicate → Prop
  free_congr : ∀ {p q}, (p == q) = true → (free p ↔ free q)

namespace Valuation

/-- Every attribute may be missing, and every atom may be false. -/
theorem nonempty (ctx : Interpretation) : Nonempty (Valuation ctx) :=
  ⟨⟨fun _ ↦ none, Interpretation.null_mem_full, fun _ ↦ False, fun _ ↦ Iff.rfl⟩⟩

/-- All constraints and literals of the term hold. -/
def Satisfies (ν : Valuation ctx) (t : Term) : Prop := t.Holds ν.value ν.free

/-- The truth values by themselves, where no attribute is known. -/
def opaqueReading (ν : Valuation ctx) : Reading ⟨none, []⟩ where
  value _ := none
  Knows _ := True
  truth := ν.free
  Compares _ _ := True
  full_mem h := by cases h
  compares_domain h := by cases h
  truth_of_isMissing _ _ h := by cases h
  truth_of_values := by
    intro atom a vs _ hn h
    rw [Interpretation.values?_of_kindless hn rfl] at h
    cases h
  compares_values := by
    intro atom a d _ hn h
    rw [Interpretation.values?_of_kindless hn rfl] at h
    cases h
  truth_congr _ _ hp hq _ _ h := ν.free_congr (Predicate.beq_of_tag_eq hp hq h)
  knows_isNull h := by cases h
  knows_compare h := by cases h
  knows_isIn h := by cases h
  knows_between h := by cases h
  truth_eq h := by cases h
  truth_ne h := by cases h
  truth_isIn h := by cases h

theorem isOpaque_opaqueReading (ν : Valuation ctx) {atom : Predicate} (h : atom.IsMember) :
    ν.opaqueReading.IsOpaque atom where
  knows := trivial
  member := h
  values := by
    rcases hn : atom.named? with _ | a
    · exact Interpretation.values?_of_unnamed hn
    · exact Interpretation.values?_of_kindless hn rfl
  present _ _ := Bool.false_ne_true

end Valuation

/-! ## Restrictions of one attribute -/

/-- The value set allows some of the values of an attribute, and not all of them. -/
structure ValueSet.Restricts (ctx : Interpretation) (a : String) (vs : ValueSet) : Prop where
  nonempty : vs.isEmpty = false
  proper : ∃ full, ctx.full? a = some full ∧ vs.SameShape full ∧ vs.subset full = true ∧
    (vs == full) = false

namespace ValueSet.Restricts

variable {a : String} {us vs full : ValueSet}

theorem fits (h : vs.Restricts ctx a) : vs.Fits ctx a := by
  obtain ⟨full, hfull, hshape, -⟩ := h.proper
  exact ⟨full, hfull, hshape⟩

theorem exists_mem (h : vs.Restricts ctx a) : ∃ v, vs.Mem v :=
  nonempty_of_isEmpty (Bool.eq_false_iff.1 h.nonempty)

theorem mem_full (h : vs.Restricts ctx a) (hfull : ctx.full? a = some full) {v : Option Value}
    (hv : vs.Mem v) : full.Mem v := by
  obtain ⟨full', hfull', hshape, hsub, -⟩ := h.proper
  cases hfull.symm.trans hfull'
  exact (subset_iff hshape).1 hsub v hv

theorem ne_full (h : vs.Restricts ctx a) (hfull : ctx.full? a = some full) :
    (vs == full) = false := by
  obtain ⟨full', hfull', -, -, hne⟩ := h.proper
  cases hfull.symm.trans hfull'
  exact hne

/-- Two restrictions allow more together, and unless that is everything, it is a restriction. -/
theorem union (hu : us.Restricts ctx a) (hv : vs.Restricts ctx a)
    (hne : ¬ (ctx.full? a == some (us.union vs)) = true) : (us.union vs).Restricts ctx a := by
  obtain ⟨full, hfull, hshape⟩ := hu.fits
  have hmem := mem_union (hu.fits.sameShape hv.fits)
  have hshape' : (us.union vs).SameShape full := by
    rw [SameShape, isNumeric_union]
    exact hshape
  constructor
  · obtain ⟨v, hvu⟩ := hu.exists_mem
    rw [Bool.eq_false_iff, Ne, isEmpty_iff]
    exact fun hempty ↦ hempty v ((hmem v).2 (.inl hvu))
  · refine ⟨full, hfull, hshape', (subset_iff hshape').2 fun v h ↦ ?_, ?_⟩
    · exact ((hmem v).1 h).elim (hu.mem_full hfull) (hv.mem_full hfull)
    · rw [hfull, Option.some_beq_some] at hne
      exact Bool.eq_false_iff.2 fun heq ↦ hne (BEq.symm heq)

end ValueSet.Restricts

/-! ## Terms -/

namespace Term

variable {s t u : Term}

/-- Each constraint restricts its attribute, the attributes ascend, and no literal stands beside its
negation. -/
structure WellFormed (ctx : Interpretation) (t : Term) : Prop where
  restricts : ∀ c ∈ t.constraints, c.2.Restricts ctx c.1
  ascending : t.constraints.Pairwise fun c d ↦ c.1 < d.1
  members : ∀ l ∈ t.literals.toList, l.atom.IsMember
  consistent : ∀ l ∈ t.literals.toList, t.literals.contains l.negate = false

theorem contains_negate_of_consistent {ls : Distinct OpaqueLiteral}
    (hls : ∀ l ∈ ls.toList, l.atom.IsMember) (h : Consistent ls) :
    ∀ l ∈ ls.toList, ls.contains l.negate = false := by
  intro l hl
  rw [Bool.eq_false_iff, Ne, contains_negate_iff hls hl]
  rintro ⟨m, hm, htag, hsign⟩
  rw [h m hm l hl htag] at hsign
  exact (Bool.eq_not_self _).1 hsign

theorem WellFormed.orderly (h : t.WellFormed ctx) : t.Orderly ctx where
  fits c hc := (h.restricts c hc).fits
  ascending := h.ascending
  members := h.members
  consistent := by
    refine consistent_of_any h.members fun hany ↦ ?_
    obtain ⟨l, hl, hc⟩ := List.any_eq_true.1 hany
    rw [h.consistent l hl] at hc
    cases hc

theorem wellFormed_always : always.WellFormed ctx :=
  ⟨List.forall_mem_nil _, .nil, fun l hl ↦ absurd hl (Distinct.not_mem_empty l),
    fun l hl ↦ absurd hl (Distinct.not_mem_empty l)⟩

theorem wellFormed_ofValues {a : String} {vs : ValueSet} (h : vs.Restricts ctx a) :
    (ofValues a vs).WellFormed ctx :=
  ⟨List.forall_mem_singleton.2 h, List.pairwise_singleton _ _,
    fun l hl ↦ absurd hl (Distinct.not_mem_empty l),
    fun l hl ↦ absurd hl (Distinct.not_mem_empty l)⟩

/-- A term of one constraint and one literal. -/
theorem wellFormed_pair {a : String} {vs : ValueSet} {l : OpaqueLiteral} (h : vs.Restricts ctx a)
    (hl : l.atom.IsMember) : WellFormed ctx ⟨[(a, vs)], .singleton l⟩ := by
  have hmembers : ∀ m ∈ (Distinct.singleton l).toList, m.atom.IsMember := fun m hm ↦ by
    rwa [Distinct.mem_singleton.1 hm]
  refine ⟨List.forall_mem_singleton.2 h, List.pairwise_singleton _ _, hmembers,
    contains_negate_of_consistent hmembers fun m hm n hn _ ↦ ?_⟩
  rw [Distinct.mem_singleton.1 hm, Distinct.mem_singleton.1 hn]

/-- **Merging makes well-formed terms of well-formed terms.** -/
theorem WellFormed.merge? (hs : s.WellFormed ctx) (ht : t.WellFormed ctx)
    (h : merge? ctx.full? s t = some u) : u.WellFormed ctx := by
  have hrestricts : ∀ c ∈ u.constraints, c.2.Restricts ctx c.1 :=
    forall_merge? (fun hus hvs hne ↦ hus.union hvs hne) hs.restricts ht.restricts h
  rcases merge?_cases h with ⟨-, hls, hcs⟩ | ⟨-, hcs, hls, -⟩
  · exact ⟨hrestricts, (merges_of_mergeValues? hcs).ascending hs.ascending, hls ▸ hs.members,
      hls ▸ hs.consistent⟩
  · have hmembers : ∀ l ∈ u.literals.toList, l.atom.IsMember := by
      rw [hls]
      exact fun l hl ↦ (Distinct.mem_of_mem_inter hl).elim (hs.members l) (ht.members l)
    have hconsistent : Consistent u.literals :=
      hls ▸ hs.orderly.consistent.inter ht.orderly.consistent
    exact ⟨hrestricts, hcs ▸ hs.ascending, hmembers,
      contains_negate_of_consistent hmembers hconsistent⟩

theorem WellFormed.allOpaque (h : t.WellFormed ctx) (ν : Valuation ctx) :
    AllOpaque ν.opaqueReading t.literals :=
  fun l hl ↦ ν.isOpaque_opaqueReading (h.members l hl)

/-- **Satisfaction goes along with equality, strength and merging.** -/
theorem isMeaning_satisfies (ν : Valuation ctx) :
    IsMeaning ctx (WellFormed ctx) ν.Satisfies where
  orderly := WellFormed.orderly
  good_always := wellFormed_always
  holds_of_isAlways h := by
    rw [eq_always h]
    exact ⟨List.forall_mem_nil _, fun l hl ↦ absurd hl (Distinct.not_mem_empty l)⟩
  congr hs ht h := holds_congr (hs.allOpaque ν) (ht.allOpaque ν) h
  of_implies hs ht h :=
    holds_of_implies hs.orderly ht.orderly (hs.allOpaque ν) (ht.allOpaque ν) h
  good_merge := WellFormed.merge?
  merge_iff hs ht h :=
    holds_merge?_iff ν.within hs.orderly ht.orderly (hs.allOpaque ν) (ht.allOpaque ν) h

end Term

end RuleCoverage
