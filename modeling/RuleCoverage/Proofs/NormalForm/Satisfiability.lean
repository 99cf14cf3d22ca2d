import RuleCoverage.Proofs.NormalForm.Assignments
import RuleCoverage.Proofs.NormalForm.Simplification

/-!
# Unsatisfiable predicates

Read against a schema, a predicate is simplified to `never` exactly when no assignment satisfies it
(`Predicate.simplify_eq_never_iff`).  That no satisfiable predicate is lost is because
simplification keeps the meaning; that no unsatisfiable one survives is because every term of an
expansion holds of some assignment, and that the former is so of each pass.
-/

set_option autoImplicit false

namespace RuleCoverage

namespace Predicate

variable {schema : Schema} {p q : Predicate} {effort : Effort}

instance : Inhabited (Assignment schema) :=
  ⟨⟨fun _ ↦ none, fun _ ↦ trivial, fun _ ↦ False, fun _ ↦ Iff.rfl⟩⟩

/-- An assignment knows all atoms. -/
theorem allAtoms_true (p : Predicate) : p.AllAtoms fun _ ↦ True :=
  (allAtoms_iff p).2 fun _ _ _ ↦ trivial

/-- The expansion of a predicate is empty exactly when no assignment satisfies it. -/
theorem expand_eq_nil_iff (hcat : schema.HasPlainCategories) {ts : List Term}
    (h : p.expand schema.interpretation false = .ok ts) :
    ts = [] ↔ ¬ ∃ α : Assignment schema, p.IsTrue α.truth := by
  have hspec := fun α : Assignment schema ↦
    expand_spec (r := α.reading hcat) p (allAtoms_true p) h
  constructor
  · rintro rfl ⟨α, hα⟩
    obtain ⟨t, ht, -⟩ := (hspec α).2.2 (iff_of_true hα rfl)
    cases ht
  · intro hun
    by_contra hne
    obtain ⟨t, ht⟩ := List.exists_mem_of_ne_nil ts hne
    obtain ⟨β, hβ⟩ := ((hspec default).1 t ht).exists_assignment
    exact hun ⟨β, ((hspec β).2.1 ⟨t, ht, hβ⟩).2 rfl⟩

/-- A pass keeps the meaning under every assignment. -/
theorem isTrue_simplifyOnce (hcat : schema.HasPlainCategories)
    (h : simplifyOnce (some schema) effort p = .ok q) (α : Assignment schema) :
    q.IsTrue α.truth ↔ p.IsTrue α.truth :=
  (writes_simplifyOnce (r := α.reading hcat) rfl
    (allAtoms_true p) h).2

/-- A pass finds out when no assignment satisfies a predicate. -/
theorem simplifyOnce_eq_never (hcat : schema.HasPlainCategories)
    (hun : ¬ ∃ α : Assignment schema, p.IsTrue α.truth)
    (h : simplifyOnce (some schema) effort p = .ok q) : q = .never := by
  obtain ⟨ctx, ts, hctx, hts, hq⟩ := simplifyOnce_cases h
  cases hctx
  have hnil := (expand_eq_nil_iff hcat hts).2 hun
  rcases hq with ⟨-, hq⟩ | ⟨hne, -⟩ | ⟨hne, -⟩
  · exact hq
  · exact absurd hnil hne
  · exact absurd hnil hne

/-- **A predicate is simplified to `never` exactly when no assignment satisfies it.** -/
theorem simplify_eq_never_iff (hcat : schema.HasPlainCategories)
    (h : p.simplify (some schema) effort = .ok q) :
    q = .never ↔ ¬ ∃ α : Assignment schema, p.IsTrue α.truth := by
  let Means (x : Predicate) : Prop := ∀ α : Assignment schema, x.IsTrue α.truth ↔ p.IsTrue α.truth
  have hself : Means p := fun _ ↦ Iff.rfl
  have hstep : ∀ x y, Means x → simplifyOnce (some schema) effort x = .ok y → Means y :=
    fun x y hx hy α ↦ (isTrue_simplifyOnce hcat hy α).trans (hx α)
  constructor
  · rintro rfl ⟨α, hα⟩
    have hmeans : Means .never := settle_induction hstep (by simpa using hself) hself h
    exact (hmeans α).2 hα
  · intro hun
    have hpass : ∀ x y, Means x → simplifyOnce (some schema) effort x = .ok y →
        Means y ∧ y = .never := by
      intro x y hx hy
      refine ⟨hstep x y hx hy, simplifyOnce_eq_never hcat ?_ hy⟩
      rintro ⟨α, hα⟩
      exact hun ⟨α, (hx α).1 hα⟩
    rcases settle_cases hpass hself (by simp) (by simp [maxPasses]) h with hq | ⟨rfl, y, rfl, hy⟩
    · exact hq
    · exact eq_never_of_beq hy

/-- No feature is of a class that its schema does not have, whatever else is asked of it. -/
theorem not_satisfiable_of_stray_category :
    ¬ ∃ α : Assignment (.ofCategories "class" (.ofList [.text "river", .text "canal"])),
      (and (compare (.text "class") .eq (.text "lake")) (.test ⟨"is_deep", false, "deep"⟩)).IsTrue
        α.truth := by
  have h : (and (compare (.text "class") .eq (.text "lake"))
      (.test ⟨"is_deep", false, "deep"⟩)).simplify
        (some (.ofCategories "class" (.ofList [.text "river", .text "canal"]))) {} =
      .ok .never := rfl
  refine (simplify_eq_never_iff (Schema.hasPlainCategories_ofCategories ?_) h).1 rfl
  intro s hs
  have hs' := Distinct.mem_of_mem_ofList hs
  simp only [List.mem_cons, List.not_mem_nil, or_false] at hs'
  rcases hs' with rfl | rfl <;> trivial

end Predicate

end RuleCoverage
