import RuleCoverage.Proofs.NormalForm.Rounds
import RuleCoverage.Proofs.NormalForm.Satisfiability

/-!
# Terms and the assignments that satisfy them

Read against a schema, a term is satisfied by the assignments that meet its demands.  The terms of
an expansion are satisfied, one or another of them, by the assignments under which the predicate is
true, and each of them is well-formed (`Predicate.expand_wellFormed`).

Strength of well-formed terms, which is a comparison of their parts, is entailment
(`Term.implies_iff_entails`).  A demand that is missing in a term can be broken alone, since
attributes and atoms do not depend on each other: there is a value to break it with, as no demand is
for all values of an attribute, and all others are met as before.

## What is here

* `Term.WellFormedIn` — terms that are well-formed with regard to a schema.
* `Term.implies_iff_entails` — strength is entailment.
* `Predicate.expand_wellFormed` — an expansion has the models of the predicate.
-/

set_option autoImplicit false

namespace RuleCoverage

variable {schema : Schema} {a : String} {us vs full : ValueSet}

theorem Assignment.mem_full (α : Assignment schema)
    (hfull : schema.interpretation.full? a = some full) : full.Mem (α.value a) :=
  (α.allowed a).mem_full hfull

/-- An assignment as a valuation of the schema's attributes and of all atoms. -/
def Assignment.valuation (α : Assignment schema) : Valuation schema.interpretation :=
  ⟨α.value, @α.mem_full, α.free, @α.free_congr⟩

theorem ValueSet.Restricts.suits (h : vs.Restricts schema.interpretation a)
    (htexts : schema.kind? a = some .string → ∀ d, vs = .discrete d → ∀ s ∈ d.values.toList,
      Kind.string.fits s = true) : vs.Suits schema a :=
  ⟨h.fits, fun _ hfull _ ↦ h.mem_full hfull, htexts⟩

/-- A restriction leaves out one of the attribute's values. -/
theorem ValueSet.Restricts.exists_not_mem (h : vs.Restricts schema.interpretation a)
    (hfull : schema.interpretation.full? a = some full) : ∃ v, full.Mem v ∧ ¬ vs.Mem v := by
  have hshape : vs.SameShape full := h.fits.sameShape ⟨full, hfull, rfl⟩
  have hne := h.ne_full hfull
  rw [Bool.eq_false_iff, Ne, beq_iff hshape, not_forall] at hne
  obtain ⟨v, hv⟩ := hne
  have hwithin := h.mem_full hfull (v := v)
  exact ⟨v, by tauto, by tauto⟩

namespace Term

variable {s t : Term}

/-- The term is well-formed, and where an attribute may be any text its constraint names texts only.
That leaves out constraints on such an attribute that list numbers or booleans, which it never is:
every set is a subset of all that it may be, so being a restriction does not exclude them.  No
expansion has any (`Predicate.expand_wellFormed`). -/
structure WellFormedIn (schema : Schema) (t : Term) : Prop extends
    t.WellFormed schema.interpretation where
  texts : ∀ c ∈ t.constraints, schema.kind? c.1 = some .string → ∀ d, c.2 = .discrete d →
    ∀ s ∈ d.values.toList, Kind.string.fits s = true

theorem WellFormedIn.suits (h : t.WellFormedIn schema) :
    ∀ c ∈ t.constraints, c.2.Suits schema c.1 :=
  fun c hc ↦ (h.restricts c hc).suits (h.texts c hc)

/-- A well-formed term can be satisfied. -/
theorem WellFormedIn.exists_satisfies (h : t.WellFormedIn schema) :
    ∃ α : Assignment schema, α.valuation.Satisfies t :=
  h.orderly.exists_assignment fun c hc ↦
    (h.suits c hc).exists_allowed (h.restricts c hc).exists_mem

/-! ## Breaking one demand -/

/-- An assignment that satisfies a term can be changed at one attribute to any value that the term
allows there. -/
theorem exists_satisfies_value (α : Assignment schema) (hα : α.valuation.Satisfies s)
    {v : Option Value} (hv : schema.Allows a v) (hs : ∀ us, (a, us) ∈ s.constraints → us.Mem v) :
    ∃ β : Assignment schema, β.valuation.Satisfies s ∧ β.value a = v := by
  refine ⟨{ α with
    value := Function.update α.value a v
    allowed := fun b ↦ ?_ }, ⟨fun c hc ↦ ?_, hα.2⟩, Function.update_self a v α.value⟩
  · by_cases hb : b = a
    · rw [hb, Function.update_self]
      exact hv
    · rw [Function.update_of_ne hb]
      exact α.allowed b
  · obtain ⟨b, ws⟩ := c
    show ws.Mem (Function.update α.value a v b)
    by_cases hb : b = a
    · subst hb
      rw [Function.update_self]
      exact hs ws hc
    · rw [Function.update_of_ne hb]
      exact hα.1 _ hc

/-- An assignment that satisfies a term can be changed at one atom against a literal that is not in
the term. -/
theorem exists_satisfies_not_literal (α : Assignment schema) (hα : α.valuation.Satisfies s)
    {m : OpaqueLiteral} (hm : ¬ ∃ l ∈ s.literals.toList, l.class_ = m.class_) :
    ∃ β : Assignment schema, β.valuation.Satisfies s ∧ ¬ (β.free m.atom ↔ m.positive = true) := by
  refine ⟨{ α with
    free := fun p ↦ (p.tag = m.atom.tag ∧ m.positive = false) ∨
      (p.tag ≠ m.atom.tag ∧ α.free p)
    free_congr := fun h ↦ ?_ }, ⟨hα.1, fun l hl ↦ ?_⟩, ?_⟩
  · rw [Predicate.tag_eq_of_beq h, α.free_congr h]
  · by_cases htag : l.atom.tag = m.atom.tag
    · -- the literal on the same atom has the other sign
      have hsign : l.positive ≠ m.positive :=
        fun hsign ↦ hm ⟨l, hl, by rw [OpaqueLiteral.class_, htag, hsign, OpaqueLiteral.class_]⟩
      show (l.atom.tag = m.atom.tag ∧ m.positive = false) ∨ _ ↔ l.positive = true
      cases hlp : l.positive <;> cases hmp : m.positive <;> simp_all
    · show (l.atom.tag = m.atom.tag ∧ m.positive = false) ∨ _ ↔ l.positive = true
      have hfree : α.free l.atom ↔ l.positive = true := hα.2 l hl
      simpa [htag] using hfree
  · show ¬ ((m.atom.tag = m.atom.tag ∧ m.positive = false) ∨ _ ↔ m.positive = true)
    cases m.positive <;> simp

/-- A constraint that none of a term's constraints is within can be broken by a value that the term
allows. -/
theorem WellFormedIn.exists_broken (hs : s.WellFormedIn schema)
    (hvs : vs.Restricts schema.interpretation a) (hsuits : vs.Suits schema a)
    (h : ¬ ∃ us, (a, us) ∈ s.constraints ∧ us.subset vs = true) :
    ∃ v, schema.Allows a v ∧ (∀ us, (a, us) ∈ s.constraints → us.Mem v) ∧ ¬ vs.Mem v := by
  by_cases hus : ∃ us, (a, us) ∈ s.constraints
  · obtain ⟨us, hus⟩ := hus
    have hsu := hs.suits _ hus
    have hsub : ¬ us.subset vs = true := fun hsub ↦ h ⟨us, hus, hsub⟩
    rw [ValueSet.subset_iff (hsu.fits.sameShape hsuits.fits), not_forall] at hsub
    obtain ⟨v, hallowed, hv, hnot⟩ :=
      hsu.exists_allowed_not_mem hsuits (hsub.imp fun _ hv ↦ Classical.not_imp.1 hv)
    refine ⟨v, hallowed, fun ws hws ↦ ?_, hnot⟩
    have hget := Dictionary.get?_of_mem hs.ascending hus
    cases hget.symm.trans (Dictionary.get?_of_mem hs.ascending hws)
    exact hv
  · obtain ⟨full, hfull, -⟩ := hvs.fits
    obtain ⟨v, hallowed, -, hnot⟩ :=
      (ValueSet.suits_full hfull).exists_allowed_not_mem hsuits (hvs.exists_not_mem hfull)
    exact ⟨v, hallowed, fun us hmem ↦ absurd ⟨us, hmem⟩ hus, hnot⟩

/-- **A well-formed term implies another one exactly if each assignment that satisfies it satisfies
the other one.** -/
theorem implies_iff_entails (hs : s.WellFormedIn schema) (ht : t.WellFormedIn schema) :
    s.implies t = true ↔
      ∀ α : Assignment schema, α.valuation.Satisfies s → α.valuation.Satisfies t := by
  constructor
  · intro h α hα
    exact (isMeaning_satisfies α.valuation).of_implies hs.toWellFormed ht.toWellFormed h hα
  · intro hentails
    obtain ⟨α, hα⟩ := hs.exists_satisfies
    rw [implies_iff hs.orderly ht.orderly]
    constructor
    · intro m hm
      by_contra hnone
      obtain ⟨β, hβ, hbroken⟩ := exists_satisfies_not_literal α hα hnone
      exact hbroken ((hentails β hβ).2 m hm)
    · intro c hc
      by_contra hnone
      obtain ⟨v, hallowed, hv, hbroken⟩ :=
        hs.exists_broken (ht.restricts c hc) (ht.suits c hc) hnone
      obtain ⟨β, hβ, rfl⟩ := exists_satisfies_value α hα hallowed hv
      exact hbroken ((hentails β hβ).1 c hc)

/-- All deep rivers are rivers, but not the other way round. -/
theorem implies_iff_entails_river :
    let schema := Schema.ofCategories "class" (.ofList [.text "river", .text "canal"])
    let river : ValueSet := .discrete (.only (.singleton (.text "river")))
    let deepRiver : Term :=
      ⟨[("class", river)], .singleton ⟨.test ⟨"is_deep", false, "deep"⟩, true⟩⟩
    deepRiver.WellFormedIn schema ∧ (ofValues "class" river).WellFormedIn schema ∧
      (∀ α : Assignment schema, α.valuation.Satisfies deepRiver →
        α.valuation.Satisfies (ofValues "class" river)) ∧
      ¬ ∀ α : Assignment schema, α.valuation.Satisfies (ofValues "class" river) →
        α.valuation.Satisfies deepRiver := by
  intro schema river deepRiver
  have hriver : river.Restricts schema.interpretation "class" := ⟨rfl, _, rfl, rfl, rfl, rfl⟩
  have htexts : ∀ c ∈ [("class", river)], schema.kind? c.1 = some .string →
      ∀ d, c.2 = .discrete d → ∀ s ∈ d.values.toList, Kind.string.fits s = true := by
    intro c hc hk
    rw [List.mem_singleton.1 hc] at hk
    cases hk
  have hdeep : deepRiver.WellFormedIn schema := ⟨wellFormed_pair hriver trivial, htexts⟩
  have hplain : (ofValues "class" river).WellFormedIn schema := ⟨wellFormed_ofValues hriver, htexts⟩
  refine ⟨hdeep, hplain, (implies_iff_entails hdeep hplain).1 rfl, fun h ↦ ?_⟩
  have himplies : (ofValues "class" river).implies deepRiver = false := rfl
  rw [(implies_iff_entails hplain hdeep).2 h] at himplies
  cases himplies

end Term

/-! ## Expansions -/

section expansions

variable {hcat : schema.HasPlainCategories} {α : Assignment schema} {t : Term}

/-- A term in good order whose demands leave something out is well-formed. -/
theorem Term.Valid.wellFormedIn (h : t.Valid (α.reading hcat))
    (hproper : t.Proper (α.reading hcat)) : t.WellFormedIn schema where
  restricts c hc := by
    have hd := h.constraints.demands c hc
    obtain ⟨full, hfull, hshape⟩ := hd.full
    refine ⟨?_, full, hfull, hshape, (ValueSet.subset_iff hshape).2 (hd.within full hfull),
      Bool.eq_false_iff.2 ((hproper c hc).proper full hfull)⟩
    rw [Bool.eq_false_iff, Ne, ValueSet.isEmpty_iff]
    obtain ⟨v, hv⟩ := hd.nonempty
    exact fun hempty ↦ hempty v hv
  ascending := h.constraints.ascending
  members := h.opaques.members
  consistent := contains_negate_of_consistent h.opaques.members h.consistent
  texts c hc := (h.constraints.demands c hc).suits.texts

/-- **The terms of an expansion are well-formed, and an assignment satisfies one of them exactly if
the predicate is true under it**, or false if it is its negation that is expanded. -/
theorem Predicate.expand_wellFormed (hcat : schema.HasPlainCategories) {p : Predicate}
    {negated : Bool} {ts : List Term} (h : p.expand schema.interpretation negated = .ok ts) :
    (∀ α : Assignment schema,
      (∃ t ∈ ts, α.valuation.Satisfies t) ↔ (p.IsTrue α.truth ↔ negated = false)) ∧
    ∀ t ∈ ts, t.WellFormedIn schema := by
  have hspec := fun α : Assignment schema ↦
    expand_spec (r := α.reading hcat) p (allAtoms_true p) h
  constructor
  · intro α
    rw [← show (α.reading hcat).truth = α.truth from rfl, ← (hspec α).2]
    exact exists_congr fun t ↦ and_congr_right fun ht ↦
      (((hspec α).1 t ht).sat_iff_holds α).symm
  · intro t ht
    have hproper := proper_expand (r := (default : Assignment schema).reading hcat) p
      (allAtoms_true p) h t ht
    exact ((hspec default).1 t ht).wellFormedIn hproper

/-- Rivers and deep waters: two well-formed terms, the models of which are theirs. -/
theorem Predicate.expand_wellFormed_river_or_deep :
    let schema := Schema.ofCategories "class" (.ofList [.text "river", .text "canal"])
    let river : Predicate := .compare (.text "class") .eq (.text "river")
    let deep : Predicate := .test ⟨"is_deep", false, "deep"⟩
    let ts : List Term := [.ofValues "class" (.discrete (.only (.singleton (.text "river")))),
      .ofLiteral ⟨deep, true⟩]
    schema.HasPlainCategories ∧ (or river deep).expand schema.interpretation false = .ok ts ∧
      (∀ α : Assignment schema, (∃ t ∈ ts, α.valuation.Satisfies t) ↔
        ((or river deep).IsTrue α.truth ↔ false = false)) ∧
      ∀ t ∈ ts, t.WellFormedIn schema := by
  intro schema river deep ts
  have hcat : schema.HasPlainCategories := Schema.hasPlainCategories_ofCategories fun s hs ↦ by
    rcases List.mem_cons.1 (Distinct.mem_of_mem_ofList hs) with rfl | hs
    · trivial
    · rw [List.mem_singleton.1 hs]
      trivial
  have hexpand : (or river deep).expand schema.interpretation false = .ok ts :=
    congrArg Except.ok (Option.some.inj
      ((Term.rounds?_dedup schema.interpretation.full? ts).symm.trans rfl))
  exact ⟨hcat, hexpand, expand_wellFormed hcat hexpand⟩

end expansions

end RuleCoverage
