import RuleCoverage.Proofs.NormalForm.Meaning
import RuleCoverage.Proofs.NormalForm.Merging
import RuleCoverage.Proofs.Values.Discrete

/-!
# Assignments to the attributes of a schema

An `Assignment` gives each attribute of a schema nothing or a value of its kind, and a truth value
to each atom that the schema does not interpret; atoms that are equal get the same one.  It is the
most general thing that predicates read against the schema can be about, and so a term of a normal
form, which contradicts itself nowhere, holds of one (`Term.Valid.exists_assignment`).

## What is here

* `Schema.Allows`, `Assignment`, `Assignment.truth` — what an attribute may be, and which atoms are
  true.
* `Assignment.reading` — an assignment as something that predicates can be about.
* `Term.Valid.exists_assignment` — a term in good order holds of some assignment.
-/

set_option autoImplicit false

namespace RuleCoverage

/-! ## Assignments -/

/-- A text, or a number other than NaN. -/
def Scalar.IsTextOrNumber : Scalar → Prop
  | .text _ | .int _ | .double _ => True
  | _ => False

namespace Schema

/-- What an attribute may be: nothing, or a value of its kind. -/
def Allows (schema : Schema) (a : String) : Option Value → Prop
  | none => True
  | some v =>
    match schema.kind? a with
    | none => False
    | some .numeric => ∃ x, v = .number x
    | some .boolean => ∃ b, v = .literal (.bool b)
    | some .categorical => ∃ s ∈ (schema.categoriesOf a).toList, v = .literal (.scalar s)
    | some .string => ∃ s, v = .literal (.text s)

/-- All categories are texts or numbers. -/
def HasPlainCategories (schema : Schema) : Prop :=
  ∀ a, ∀ s ∈ (schema.categoriesOf a).toList, s.IsTextOrNumber

/-- How predicates are read against the schema. -/
def interpretation (schema : Schema) : Interpretation := ⟨some schema, []⟩

/-- The schema of one categorical attribute. -/
def ofCategories (a : String) (values : Distinct Scalar) : Schema :=
  ⟨[(a, .categorical)], [(a, values)], defaultName⟩

variable {schema : Schema} {a : String} {k : Kind}

theorem hasPlainCategories_ofCategories {values : Distinct Scalar}
    (h : ∀ s ∈ values.toList, s.IsTextOrNumber) : (ofCategories a values).HasPlainCategories := by
  intro b s hs
  rw [categoriesOf, ofCategories, Dictionary.get?] at hs
  split at hs
  · exact h s hs
  · exact absurd hs (Distinct.not_mem_empty s)

theorem isMissing_iff : schema.interpretation.isMissing a = true ↔ schema.kind? a = none := by
  simp [interpretation, Interpretation.isMissing, has]

theorem fits_of_mem_domain (hcat : schema.HasPlainCategories) {d : Distinct Scalar}
    (h : schema.domainOf a k = some d) : ∀ s ∈ d.toList, k.fits s = true := by
  intro s hs
  cases k with
  | numeric | string => cases h
  | boolean =>
    cases h
    have hs' := Distinct.mem_of_mem_ofList hs
    simp only [List.mem_cons, List.not_mem_nil, or_false] at hs'
    rcases hs' with rfl | rfl <;> rfl
  | categorical =>
    cases h
    have hplain := hcat a s hs
    cases s <;> first | rfl | exact hplain.elim

end Schema

/-- A value for each attribute of a schema, and a truth value for each uninterpreted atom. -/
structure Assignment (schema : Schema) where
  /-- What an attribute is. -/
  value : String → Option Value
  allowed : ∀ a, schema.Allows a (value a)
  /-- Which atoms are true that the schema does not interpret. -/
  free : Predicate → Prop
  free_congr : ∀ {p q}, (p == q) = true → (free p ↔ free q)

namespace Assignment

variable {schema : Schema}

/-- Which atoms are true.  An atom on an attribute outside the schema is judged by its missing
value, an interpreted one by its meaning, and any other one is true or not independently. -/
def truth (α : Assignment schema) (atom : Predicate) : Prop :=
  match atom.named? with
  | none => α.free atom
  | some a =>
    match schema.kind? a with
    | none => atom.holdsOfNull = true
    | some k =>
      match atom.meaning? k with
      | some m => m (α.value a)
      | none => α.free atom

variable (α : Assignment schema) {atom : Predicate} {a : String} {k : Kind}

theorem truth_of_unnamed (h : atom.named? = none) : α.truth atom ↔ α.free atom := by
  rw [truth, h]

theorem truth_of_outside (h : atom.named? = some a) (hk : schema.kind? a = none) :
    α.truth atom ↔ atom.holdsOfNull = true := by
  simp only [truth, h, hk]

theorem truth_of_meaning {m : Option Value → Prop} (h : atom.named? = some a)
    (hk : schema.kind? a = some k) (hm : atom.meaning? k = some m) :
    α.truth atom ↔ m (α.value a) := by
  simp only [truth, h, hk, hm]

theorem truth_of_meaningless (h : atom.named? = some a) (hk : schema.kind? a = some k)
    (hm : atom.meaning? k = none) : α.truth atom ↔ α.free atom := by
  simp only [truth, h, hk, hm]

end Assignment

/-! ## Assignments as readings -/

theorem Scalar.key_eq_text_iff {s : Scalar} {a : String} :
    s.key = .text a ↔ (Literal.scalar s).text? = some a := by
  cases s <;> simp [key, Literal.text?]

/-- Scalars of one tag are the same text, if any. -/
theorem Literal.text?_of_tag_eq {x y : Literal} (hx : x.IsScalar) (hy : y.IsScalar)
    (h : x.tag = y.tag) : x.text? = y.text? := by
  obtain ⟨s, rfl⟩ := hx
  obtain ⟨t, rfl⟩ := hy
  rw [tag, tag, Tag.key.injEq] at h
  ext a
  rw [← Scalar.key_eq_text_iff, h, Scalar.key_eq_text_iff]

namespace Predicate

variable {p q : Predicate}

theorem named?_of_tag_eq (hp : p.IsMember) (hq : q.IsMember) (h : p.tag = q.tag) :
    p.named? = q.named? := by
  cases p <;> cases q <;> first | exact hp.elim | exact hq.elim | rfl | cases h | skip
  case compare.compare =>
    exact Literal.text?_of_tag_eq hp.1 hq.1 (Tag.compare.inj h).1
  case isIn.isIn =>
    exact Literal.text?_of_tag_eq hp hq (Tag.isIn.inj h).1
  case between.between =>
    exact Literal.text?_of_tag_eq hp.1 hq.1 (Tag.between.inj h).1
  case isNull.isNull =>
    exact Literal.text?_of_tag_eq hp hq (Tag.isNull.inj h)

theorem holdsOfNull_of_tag_eq (h : p.tag = q.tag) : p.holdsOfNull = q.holdsOfNull := by
  cases p <;> cases q <;> first | rfl | cases h | skip
  case compare.compare =>
    rw [holdsOfNull, holdsOfNull, (Tag.compare.inj h).2.1]

end Predicate

namespace Schema

variable {schema : Schema} {a : String} {k : Kind}

theorem full?_numeric (hk : schema.kind? a = some .numeric) :
    schema.interpretation.full? a = some (.numeric .full) :=
  Interpretation.full?_numeric hk

theorem full?_discrete (hk : schema.kind? a = some k) (hk' : k ≠ .numeric) :
    schema.interpretation.full? a = some (.discrete (.full (schema.domainOf a k))) :=
  Interpretation.full?_discrete hk hk'

/-- Whatever an attribute is allowed to be is among all that the expansion supposes it to be. -/
theorem Allows.mem_full {v : Option Value} {full : ValueSet} (hv : schema.Allows a v)
    (hfull : schema.interpretation.full? a = some full) : full.Mem v := by
  obtain ⟨k, hk, -⟩ := Interpretation.full?_eq_some hfull
  change schema.kind? a = some k at hk
  by_cases hnum : k = .numeric
  · subst hnum
    rw [full?_numeric hk] at hfull
    cases hfull
    exact NumericValues.mem_full _
  rw [full?_discrete hk hnum] at hfull
  cases hfull
  rw [ValueSet.Mem]
  cases v with
  | none => cases h : schema.domainOf a k <;> rfl
  | some v =>
    rw [Allows, hk] at hv
    cases k with
    | numeric => exact absurd rfl hnum
    | string => exact DiscreteValues.mem_everything _
    | boolean =>
      obtain ⟨b, rfl⟩ := hv
      rw [domainOf, DiscreteValues.mem_full_some]
      rintro _ ⟨⟩
      exact Distinct.hasKey_ofList.2 ⟨.bool b, by cases b <;> simp, rfl⟩
    | categorical =>
      obtain ⟨s, hs, rfl⟩ := hv
      rw [domainOf, DiscreteValues.mem_full_some]
      rintro _ ⟨⟩
      exact ⟨s, hs, rfl⟩

end Schema

namespace Assignment

variable {schema : Schema} (α : Assignment schema) {atom : Predicate} {a : String}

/-- An atom that has a value set is true if its attribute is in it. -/
theorem truth_of_values {vs : ValueSet} (hn : atom.named? = some a)
    (h : schema.interpretation.values? atom = .ok (some vs)) :
    α.truth atom ↔ vs.Mem (α.value a) := by
  obtain ⟨k, m, hk, hm, hmem⟩ := Interpretation.exists_meaning?_of_values hn h
  rw [α.truth_of_meaning hn hk hm, hmem]

/-- An atom that has no value set is independent of the value of its attribute. -/
theorem truth_of_no_values {k : Kind} (hn : atom.named? = some a) (hk : schema.kind? a = some k)
    (h : schema.interpretation.values? atom = .ok none) : α.truth atom ↔ α.free atom := by
  have hk' : schema.interpretation.kind? a = some k := hk
  exact α.truth_of_meaningless hn hk (Interpretation.meaning?_eq_none hn hk' h)

theorem truth_congr {p q : Predicate} (hp : p.IsMember) (hq : q.IsMember)
    (hvp : schema.interpretation.values? p = .ok none)
    (hvq : schema.interpretation.values? q = .ok none) (h : p.tag = q.tag) :
    α.truth p ↔ α.truth q := by
  have hfree := α.free_congr (Predicate.beq_of_tag_eq hp hq h)
  have hnamed := Predicate.named?_of_tag_eq hp hq h
  rcases hn : p.named? with _ | a
  · rw [α.truth_of_unnamed hn, α.truth_of_unnamed (hnamed.symm.trans hn), hfree]
  rcases hk : schema.kind? a with _ | k
  · rw [α.truth_of_outside hn hk, α.truth_of_outside (hnamed.symm.trans hn) hk,
      Predicate.holdsOfNull_of_tag_eq h]
  · rw [α.truth_of_no_values hn hk hvp, α.truth_of_no_values (hnamed.symm.trans hn) hk hvq, hfree]

/-- An assignment is something that predicates can be about. -/
def reading (hcat : schema.HasPlainCategories) : Reading schema.interpretation where
  value := α.value
  Knows _ := True
  truth := α.truth
  Compares a s := ∀ k, schema.kind? a = some k → k.fits s = true
  full_mem h := (α.allowed _).mem_full h
  compares_domain := by
    intro a d hfull s hs k hk
    by_cases hnum : k = .numeric
    · subst hnum
      rw [Schema.full?_numeric hk] at hfull
      cases hfull
    · rw [Schema.full?_discrete hk hnum] at hfull
      cases hfull
      cases hdom : schema.domainOf a k with
      | none =>
        rw [hdom] at hs
        exact absurd hs (Distinct.not_mem_empty s)
      | some domain =>
        rw [hdom] at hs
        exact Schema.fits_of_mem_domain hcat hdom s hs
  truth_of_isMissing _ hn hmiss := α.truth_of_outside hn (Schema.isMissing_iff.1 hmiss)
  truth_of_values _ hn h := α.truth_of_values hn h
  compares_values := by
    intro atom a d _ hn h s hs k hk
    have hk' : schema.interpretation.kind? a = some k := hk
    exact (Interpretation.literal_of_mem_values hn hk' h s hs).1
  truth_congr _ _ hp hq hvp hvq h := α.truth_congr hp hq hvp hvq h
  knows_isNull _ := trivial
  knows_compare _ _ _ := trivial
  knows_isIn _ _ _ := trivial
  knows_between _ _ _ _ _ := trivial
  truth_eq hk hnum hs :=
    ⟨trivial, α.truth_of_meaning rfl hk (Predicate.meaning?_eq hnum (hs _ hk))⟩
  truth_ne hk hnum hs :=
    ⟨trivial, α.truth_of_meaning rfl hk (Predicate.meaning?_ne hnum (hs _ hk))⟩
  truth_isIn := by
    intro a k vs hk hnum hvs
    have hm := Predicate.meaning?_isIn (a := .text a) hnum fun s hs ↦ hvs s hs k hk
    refine ⟨trivial, (α.truth_of_meaning rfl hk hm).trans ?_⟩
    exact exists_congr fun s ↦ and_congr_right fun _ ↦ eq_comm

end Assignment

/-! ## A term holds of some assignment -/

namespace DiscreteValues

variable {d : DiscreteValues} {v : Value}

/-- A value from a finite domain can be taken to be one of the domain's scalars. -/
theorem exists_scalar {domain : Distinct Scalar}
    (hdom : (ValueSet.discrete (.full (some domain))).Mem (some v))
    (h : (ValueSet.discrete d).Mem (some v)) :
    ∃ s ∈ domain.toList, (ValueSet.discrete d).Mem (some (.literal (.scalar s))) := by
  obtain ⟨s, hs, hkey⟩ := (mem_full_some domain (some v.key?)).1 hdom _ rfl
  refine ⟨s, hs, ?_⟩
  show d.Mem (some (some s.key))
  rwa [hkey]

/-- Where all scalars are texts, any value can be taken to be one. -/
theorem exists_text (htext : ∀ s ∈ d.values.toList, Kind.string.fits s = true)
    (h : (ValueSet.discrete d).Mem (some v)) :
    ∃ t, (ValueSet.discrete d).Mem (some (.literal (.text t))) := by
  cases hco : d.cofinite with
  | false =>
    rcases (mem_iff_of_not_cofinite hco (some v)).1 h with h' | ⟨s, hs, -⟩
    · cases h'.2
    have hfits := htext s hs
    cases s with
    | text t =>
      exact ⟨t, (mem_iff_of_not_cofinite hco (some _)).2 (.inr ⟨_, hs, rfl⟩)⟩
    | _ => cases hfits
  | true =>
    obtain ⟨t, ht⟩ := d.values.exists_text_not_hasKey
    exact ⟨t, (mem_iff_of_cofinite hco (some _)).2 ⟨.inr (Option.some_ne_none _), ht⟩⟩

end DiscreteValues

/-! ### Value sets of an attribute -/

namespace ValueSet

variable {schema : Schema} {a : String} {us vs full : ValueSet}

/-- The value set is about the values of an attribute: it is of their shape and leads nowhere beyond
them.  What a set names is said apart for an attribute that may be any text, because all the values
of such an attribute are written as the set that excludes nothing. -/
structure Suits (schema : Schema) (a : String) (vs : ValueSet) : Prop where
  fits : vs.Fits schema.interpretation a
  within : ∀ full, schema.interpretation.full? a = some full → ∀ v, vs.Mem v → full.Mem v
  texts : schema.kind? a = some .string → ∀ d, vs = .discrete d → ∀ s ∈ d.values.toList,
    Kind.string.fits s = true

theorem suits_full (hfull : schema.interpretation.full? a = some full) : full.Suits schema a where
  fits := ⟨full, hfull, rfl⟩
  within full' hfull' v hv := by
    cases hfull.symm.trans hfull'
    exact hv
  texts hk d hd s hs := by
    rw [Schema.full?_discrete hk (by simp)] at hfull
    cases hfull
    cases hd
    exact absurd hs (Distinct.not_mem_empty s)

/-- What one set has and another one leaves out. -/
theorem Suits.diff (hu : us.Suits schema a) (hv : vs.Suits schema a) :
    (us.inter vs.complement).Suits schema a ∧
      ∀ v, (us.inter vs.complement).Mem v ↔ us.Mem v ∧ ¬ vs.Mem v := by
  have hshape : us.SameShape vs.complement := by
    rw [SameShape, isNumeric_complement]
    exact hu.fits.sameShape hv.fits
  have hmem : ∀ v, (us.inter vs.complement).Mem v ↔ us.Mem v ∧ ¬ vs.Mem v := fun v ↦ by
    rw [mem_inter hshape, mem_complement]
  obtain ⟨full, hfull, hus⟩ := hu.fits
  refine ⟨⟨⟨full, hfull, by rw [SameShape, isNumeric_inter]; exact hus⟩, ?_, ?_⟩, hmem⟩
  · exact fun full' hfull' v h ↦ hu.within full' hfull' v ((hmem v).1 h).1
  · intro hk d hd s hs
    cases us <;> cases vs <;> cases hd
    · cases hs
    · rcases mem_values_inter hs with hs | hs
      · exact hu.texts hk _ rfl s hs
      · exact hv.texts hk _ rfl s hs

/-- If such a set is not empty, then the attribute may have a value in it. -/
theorem Suits.exists_allowed (h : vs.Suits schema a) (hne : ∃ v, vs.Mem v) :
    ∃ v, schema.Allows a v ∧ vs.Mem v := by
  obtain ⟨_ | v, hv⟩ := hne
  · exact ⟨none, trivial, hv⟩
  cases h.fits.shaped with
  | numeric hk =>
    change schema.kind? a = some .numeric at hk
    refine ⟨some (.number v.toEReal), ?_, hv⟩
    rw [Schema.Allows, hk]
    exact ⟨_, rfl⟩
  | @discrete d k domain hk hk' =>
    change schema.kind? a = some k at hk
    have hvfull := h.within _ (Schema.full?_discrete hk hk') _ hv
    suffices h' : ∃ w, schema.Allows a (some w) ∧ (ValueSet.discrete d).Mem (some w) by
      obtain ⟨w, hw⟩ := h'
      exact ⟨some w, hw⟩
    simp only [Schema.Allows, hk]
    cases k with
    | numeric => exact absurd rfl hk'
    | boolean =>
      obtain ⟨s, hs, hmem⟩ := DiscreteValues.exists_scalar hvfull hv
      have hs' := Distinct.mem_of_mem_ofList hs
      simp only [List.mem_cons, List.not_mem_nil, or_false] at hs'
      rcases hs' with rfl | rfl <;> exact ⟨_, ⟨_, rfl⟩, hmem⟩
    | categorical =>
      obtain ⟨s, hs, hmem⟩ := DiscreteValues.exists_scalar hvfull hv
      exact ⟨_, ⟨s, hs, rfl⟩, hmem⟩
    | string =>
      obtain ⟨t, hmem⟩ := DiscreteValues.exists_text (h.texts hk d rfl) hv
      exact ⟨_, ⟨t, rfl⟩, hmem⟩

/-- If one set has a value that another one leaves out, then it has one that the attribute may have.
-/
theorem Suits.exists_allowed_not_mem (hu : us.Suits schema a) (hv : vs.Suits schema a)
    (h : ∃ v, us.Mem v ∧ ¬ vs.Mem v) : ∃ w, schema.Allows a w ∧ us.Mem w ∧ ¬ vs.Mem w := by
  obtain ⟨hdiff, hmem⟩ := hu.diff hv
  obtain ⟨w, hallowed, hw⟩ := hdiff.exists_allowed (h.imp fun v hv ↦ (hmem v).2 hv)
  exact ⟨w, hallowed, (hmem w).1 hw⟩

variable {hcat : schema.HasPlainCategories} {α : Assignment schema}

theorem Demand.suits (h : vs.Demand (α.reading hcat) a) : vs.Suits schema a :=
  ⟨h.full, h.within, fun hk d hd s hs ↦ h.writable d hd s hs _ hk⟩

/-- A demand can be met by a value that the attribute may have. -/
theorem Demand.exists_allowed (h : vs.Demand (α.reading hcat) a) :
    ∃ v, schema.Allows a v ∧ vs.Mem v :=
  h.suits.exists_allowed h.nonempty

end ValueSet

/-! ### Terms -/

section models

variable {schema : Schema} {hcat : schema.HasPlainCategories} {α : Assignment schema}

/-- An opaque atom is as true as the assignment says. -/
theorem Assignment.truth_iff_free {atom : Predicate}
    (hvalues : schema.interpretation.values? atom = .ok none)
    (hpresent : ∀ a, atom.named? = some a → ¬ schema.interpretation.isMissing a = true) :
    α.truth atom ↔ α.free atom := by
  rcases hn : atom.named? with _ | a
  · exact α.truth_of_unnamed hn
  rcases hk : schema.kind? a with _ | k
  · exact absurd (Schema.isMissing_iff.2 hk) (hpresent a hn)
  · exact α.truth_of_no_values hn hk hvalues

/-- What a term says under an assignment depends on the values and the free atoms alone. -/
theorem Term.Valid.sat_iff_holds {t : Term} (ht : t.Valid (α.reading hcat))
    (β : Assignment schema) :
    t.Sat (β.reading hcat) ↔ t.Holds β.value β.free := by
  refine and_congr_right fun _ ↦ forall_congr' fun l ↦ imp_congr_right fun hl ↦ ?_
  have hop := ht.opaques l hl
  exact iff_congr (Assignment.truth_iff_free hop.values hop.present) Iff.rfl

/-- A term whose constraints can be met one by one holds of some assignment, because its attributes
and its atoms do not depend on each other. -/
theorem Term.Orderly.exists_assignment {ctx : Interpretation} {t : Term} (ht : t.Orderly ctx)
    (hmet : ∀ c ∈ t.constraints, ∃ v, schema.Allows c.1 v ∧ c.2.Mem v) :
    ∃ β : Assignment schema, t.Holds β.value β.free := by
  have hvalue : ∀ a, ∃ v, schema.Allows a v ∧ ∀ vs, (a, vs) ∈ t.constraints → vs.Mem v := by
    intro a
    by_cases h : ∃ vs, (a, vs) ∈ t.constraints
    · obtain ⟨vs, hvs⟩ := h
      obtain ⟨v, hallowed, hv⟩ := hmet _ hvs
      refine ⟨v, hallowed, ?_⟩
      intro ws hws
      have h' := Dictionary.get?_of_mem ht.ascending hvs
      cases h'.symm.trans (Dictionary.get?_of_mem ht.ascending hws)
      exact hv
    · exact ⟨none, trivial, fun vs hvs ↦ absurd ⟨vs, hvs⟩ h⟩
  choose value hallowed hmem using hvalue
  let β : Assignment schema := {
    value
    allowed := hallowed
    -- what the term asks for is true, and nothing else is
    free := fun p ↦ ∃ l ∈ t.literals.toList, l.atom.tag = p.tag ∧ l.positive = true
    free_congr := fun h ↦ by rw [Predicate.tag_eq_of_beq h] }
  refine ⟨β, fun c hc ↦ hmem c.1 c.2 hc, fun l hl ↦ ⟨fun ⟨m, hm, htag, hpos⟩ ↦ ?_,
    fun hpos ↦ ⟨l, hl, rfl, hpos⟩⟩⟩
  rw [← ht.consistent m hm l hl htag, hpos]

/-- **A term in good order holds of some assignment.** -/
theorem Term.Valid.exists_assignment {t : Term} (ht : t.Valid (α.reading hcat)) :
    ∃ β : Assignment schema, t.Sat (β.reading hcat) := by
  obtain ⟨β, hβ⟩ := ht.orderly.exists_assignment
    fun c hc ↦ (ht.constraints.demands c hc).exists_allowed
  exact ⟨β, (ht.sat_iff_holds β).2 hβ⟩

end models

end RuleCoverage
