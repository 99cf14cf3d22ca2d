import RuleCoverage.Proofs.Coverage.Runs
import RuleCoverage.Proofs.NormalForm.Satisfiability

/-!
# The region of a coverage

Read against a schema, predicates are about assignments, and what a fragment, a clause or a selector
cuts out is a set of *points*: a scale together with an assignment.  Scales are points of the
extended line here, so that no range between two bounds is overlooked.

Every operation of a coverage does to the points what it should, because simplification keeps the
truth under each assignment (`Simplifier.KeepsTruth`).

## What is here

* `Fragment.HasPoint`, `Selector.HasPoint`, `Coverage.HasPoint` — the points of each.
* `Coverage.hasPoint_toFragments`, `Coverage.hasPoint_remainder` — cutting a selector into fragments
  and taking fragments away.
* `Coverage.hasPoint_after` — after any run of steps a coverage has the points of the rules that
  were added to it since it was last reset.
-/

set_option autoImplicit false

namespace RuleCoverage

variable {schema : Schema} {α : Assignment schema} {x : EReal} {simplify : Simplifier}

/-! ## Simplification under an assignment -/

/-- What a simplification gives is as true as what it was given. -/
def Simplifier.KeepsTruth (simplify : Simplifier) (α : Assignment schema) : Prop :=
  ∀ p q, simplify p = .ok q → (q.IsTrue α.truth ↔ p.IsTrue α.truth)

namespace Predicate

variable {p q : Predicate} {effort : Effort}

/-- Some assignment satisfies the predicate. -/
def Satisfiable (schema : Schema) (p : Predicate) : Prop :=
  ∃ α : Assignment schema, p.IsTrue α.truth

/-- Simplification keeps the truth under every assignment. -/
theorem isTrue_simplify (hcat : schema.HasPlainCategories) (α : Assignment schema)
    (h : p.simplify (some schema) effort = .ok q) : q.IsTrue α.truth ↔ p.IsTrue α.truth := by
  have hself : p.IsTrue α.truth ↔ p.IsTrue α.truth := Iff.rfl
  refine settle_induction (P := fun y ↦ y.IsTrue α.truth ↔ p.IsTrue α.truth) ?_ (by simp) hself h
  intro y z hy hz
  exact (isTrue_simplifyOnce hcat hz α).trans hy

/-- What is not found to be unsatisfiable is satisfiable. -/
theorem satisfiable_of_simplify (hcat : schema.HasPlainCategories)
    (h : p.simplify (some schema) effort = .ok q) (hq : q ≠ .never) : q.Satisfiable schema := by
  by_contra hun
  refine hq ?_
  -- no assignment satisfies what the passes go through, so the first pass ends with `never`
  let Means (y : Predicate) : Prop := ∀ α : Assignment schema, y.IsTrue α.truth ↔ q.IsTrue α.truth
  have hstart : Means p := fun α ↦ (isTrue_simplify hcat α h).symm
  have hpass : ∀ y z, Means y → simplifyOnce (some schema) effort y = .ok z →
      Means z ∧ z = .never := by
    intro y z hy hz
    refine ⟨fun α ↦ (isTrue_simplifyOnce hcat hz α).trans (hy α), ?_⟩
    refine simplifyOnce_eq_never hcat ?_ hz
    rintro ⟨α, hα⟩
    exact hun ⟨α, (hy α).1 hα⟩
  rcases settle_cases hpass hstart (by simp) (by simp [maxPasses]) h with hq | ⟨rfl, y, rfl, hy⟩
  · exact hq
  · exact eq_never_of_beq hy

end Predicate

theorem Coverage.keepsTruth_simplify {c : Coverage} (hcat : schema.HasPlainCategories)
    (hc : c.schema = some schema) (α : Assignment schema) :
    Simplifier.KeepsTruth c.simplify α := by
  intro p q h
  rw [Coverage.simplify, hc] at h
  exact Predicate.isTrue_simplify hcat α h

/-! ## Points -/

/-- The fragment has the point. -/
def Fragment.HasPoint (x : EReal) (α : Assignment schema) (f : Fragment) : Prop :=
  f.scale.Mem x ∧ f.predicate.IsTrue α.truth

/-- The clause has the point. -/
def Clause.HasPoint (x : EReal) (α : Assignment schema) (c : Clause) : Prop :=
  c.scales.Mem x ∧ c.predicate.IsTrue α.truth

/-- The selector has the point. -/
def Selector.HasPoint (x : EReal) (α : Assignment schema) (s : Selector) : Prop :=
  ∃ c ∈ s.leaves, c.HasPoint x α

namespace Fragment

variable {a b : Fragment} {fs gs : List Fragment}

/-- One of the fragments has the point. -/
def AnyHasPoint (x : EReal) (α : Assignment schema) (fs : List Fragment) : Prop :=
  ∃ f ∈ fs, f.HasPoint x α

@[simp] theorem anyHasPoint_nil : ¬ AnyHasPoint x α [] := by simp [AnyHasPoint]

@[simp] theorem anyHasPoint_cons :
    AnyHasPoint x α (a :: fs) ↔ a.HasPoint x α ∨ AnyHasPoint x α fs := List.exists_mem_cons_iff ..

@[simp] theorem anyHasPoint_append :
    AnyHasPoint x α (fs ++ gs) ↔ AnyHasPoint x α fs ∨ AnyHasPoint x α gs := by
  simp only [AnyHasPoint, List.mem_append, or_and_right, exists_or]

theorem anyHasPoint_perm (h : fs.Perm gs) : AnyHasPoint x α fs ↔ AnyHasPoint x α gs := by
  simp only [AnyHasPoint, h.mem_iff]

theorem hasPoint_toSelector (f : Fragment) : f.toSelector.HasPoint x α ↔ f.HasPoint x α := by
  simp only [Selector.HasPoint, toSelector, Selector.leaves, List.mem_singleton, exists_eq_left]
  exact Iff.rfl

end Fragment

/-- The coverage has the point. -/
def Coverage.HasPoint (x : EReal) (α : Assignment schema) (c : Coverage) : Prop :=
  Fragment.AnyHasPoint x α c.fragments

/-! ## Taking fragments away -/

namespace Fragment

/-- Rectangles with one predicate have the points of their scale ranges on which it is true. -/
theorem anyHasPoint_map_mk (ivs : List Interval) (p : Predicate) :
    AnyHasPoint x α (ivs.map fun iv ↦ ⟨iv, p⟩) ↔ (∃ iv ∈ ivs, iv.Mem x) ∧ p.IsTrue α.truth := by
  constructor
  · rintro ⟨f, hf, hx, hp⟩
    obtain ⟨iv, hiv, rfl⟩ := List.mem_map.1 hf
    exact ⟨⟨iv, hiv, hx⟩, hp⟩
  · rintro ⟨⟨iv, hiv, hx⟩, hp⟩
    exact ⟨_, List.mem_map_of_mem hiv, hx, hp⟩

variable {a b : Fragment} {fs gs : List Fragment}

/-- **A difference has the points of the one fragment that the other has not.** -/
theorem hasPoint_difference (hs : simplify.KeepsTruth α) (h : a.difference simplify b = .ok fs) :
    AnyHasPoint x α fs ↔ a.HasPoint x α ∧ ¬ b.HasPoint x α := by
  rcases difference_cases h with ⟨hnone, rfl⟩ | ⟨shared, inside, hshared, hinside, rfl⟩
  · have hdisjoint : ¬ (a.scale.Mem x ∧ b.scale.Mem x) := by
      rw [← Interval.mem_intersect?, hnone]
      simp
    rw [anyHasPoint_cons, or_iff_left anyHasPoint_nil, HasPoint, HasPoint]
    grind
  · have hboth : shared.Mem x ↔ a.scale.Mem x ∧ b.scale.Mem x := by
      rw [← Interval.mem_intersect?, hshared]
      simp
    have htrue : inside.IsTrue α.truth ↔
        a.predicate.IsTrue α.truth ∧ ¬ b.predicate.IsTrue α.truth := hs _ _ hinside
    -- what is dropped has no points
    have hin : AnyHasPoint x α (if inside == .never then [] else [⟨shared, inside⟩]) ↔
        shared.Mem x ∧ inside.IsTrue α.truth := by
      split
      · rename_i hnever
        rw [Predicate.eq_never_of_beq hnever]
        exact iff_of_false anyHasPoint_nil fun h ↦ h.2
      · rw [anyHasPoint_cons, or_iff_left anyHasPoint_nil]
        rfl
    rw [anyHasPoint_append, hin, anyHasPoint_map_mk, Interval.mem_subtract, hboth, htrue, HasPoint,
      HasPoint]
    grind

theorem hasPoint_differenceAll (hs : simplify.KeepsTruth α)
    (h : differenceAll simplify fs b = .ok gs) :
    AnyHasPoint x α gs ↔ AnyHasPoint x α fs ∧ ¬ b.HasPoint x α := by
  obtain ⟨parts, hparts, rfl⟩ := map_eq_ok.1 h
  clear h
  induction mapM_eq_ok.1 hparts with
  | nil => simp
  | @cons f part fs parts hpart htail ih =>
    rw [List.flatten_cons, anyHasPoint_append, anyHasPoint_cons, ih (mapM_eq_ok.2 htail),
      hasPoint_difference hs hpart, or_and_right]

end Fragment

namespace Coverage

open Fragment

variable {c next : Coverage} {fs gs done pieces : List Fragment}

/-- **Taking fragments away one after another takes away all of their points.** -/
theorem hasPoint_remainder (hs : simplify.KeepsTruth α)
    (h : remainder simplify fs gs = .ok pieces) :
    AnyHasPoint x α pieces ↔ AnyHasPoint x α fs ∧ ¬ AnyHasPoint x α gs := by
  induction gs generalizing fs with
  | nil =>
    cases h
    simp
  | cons g gs ih =>
    obtain ⟨rest, hrest, h⟩ := bind_eq_ok.1 h
    rw [ih h, hasPoint_differenceAll hs hrest, anyHasPoint_cons, not_or, and_assoc]

/-! ## From selectors to fragments -/

/-- Adding a rectangle adds its points. -/
theorem Places.hasPoint_iff {scale : Interval} {p : Predicate} (h : Places simplify scale p fs gs)
    (hs : simplify.KeepsTruth α) :
    AnyHasPoint x α gs ↔ AnyHasPoint x α fs ∨ Fragment.HasPoint x α ⟨scale, p⟩ := by
  induction h with
  | last => simp
  | @join f fs q hscale hq =>
    have htrue : q.IsTrue α.truth ↔ f.predicate.IsTrue α.truth ∨ p.IsTrue α.truth := hs _ _ hq
    rw [anyHasPoint_cons, anyHasPoint_cons, Fragment.HasPoint, Fragment.HasPoint,
      Fragment.HasPoint, htrue, Interval.mem_congr hscale]
    grind
  | behind _ ih => rw [anyHasPoint_cons, anyHasPoint_cons, ih, or_assoc]

/-- The rectangles of some clauses have the points of the clauses. -/
theorem Gathers.hasPoint_iff {cs : List Clause} (h : c.Gathers fs cs gs)
    (hs : Simplifier.KeepsTruth c.simplify α) :
    AnyHasPoint x α gs ↔ AnyHasPoint x α fs ∨ ∃ clause ∈ cs, clause.HasPoint x α := by
  induction h with
  | nil => simp
  | @skip clause _ _ _ hempty _ ih =>
    have hnone : ¬ clause.HasPoint x α :=
      fun hx ↦ (Interval.isEmpty_iff_forall _).1 hempty x hx.1
    rw [ih, List.exists_mem_cons_iff, or_iff_right hnone]
  | place _ hplaced _ ih =>
    rw [ih, hplaced.hasPoint_iff hs, List.exists_mem_cons_iff, or_assoc]
    rfl

/-- Making fragments disjoint keeps their points. -/
theorem hasPoint_disjoint (hs : simplify.KeepsTruth α) (h : disjoint simplify done fs = .ok gs) :
    AnyHasPoint x α gs ↔ AnyHasPoint x α done ∨ AnyHasPoint x α fs := by
  induction fs generalizing done with
  | nil =>
    cases h
    simp
  | cons f fs ih =>
    obtain ⟨rest, hrest, h⟩ := bind_eq_ok.1 h
    have hnew := hasPoint_remainder (x := x) hs hrest
    rw [anyHasPoint_cons, or_iff_left anyHasPoint_nil] at hnew
    rw [ih h, anyHasPoint_append, hnew, anyHasPoint_cons]
    grind

/-- **The fragments of a selector have the points of the selector.** -/
theorem hasPoint_toFragments (hs : Simplifier.KeepsTruth c.simplify α) {s : Selector}
    (h : c.toFragments s = .ok fs) : AnyHasPoint x α fs ↔ s.HasPoint x α := by
  obtain ⟨cs, hcs, h⟩ := bind_eq_ok.1 h
  obtain ⟨rects, hrects, h⟩ := bind_eq_ok.1 h
  rw [hasPoint_disjoint hs h, (gathers_of_rectangles hrects).hasPoint_iff hs, clauses_eq hcs,
    or_iff_right anyHasPoint_nil, or_iff_right anyHasPoint_nil]
  rfl

/-! ## Growing -/

/-- Joining fragments of equal scale ranges keeps their points. -/
theorem Joins.hasPoint_iff (h : Joins simplify done fs gs) (hs : simplify.KeepsTruth α) :
    AnyHasPoint x α gs ↔ AnyHasPoint x α done ∨ AnyHasPoint x α fs := by
  induction h with
  | @nil done => rw [anyHasPoint_perm (List.reverse_perm done), or_iff_left anyHasPoint_nil]
  | @join last f _ _ _ p hscale hp _ ih =>
    have htrue : p.IsTrue α.truth ↔ f.predicate.IsTrue α.truth ∨ last.predicate.IsTrue α.truth :=
      hs _ _ hp
    rw [ih, anyHasPoint_cons, anyHasPoint_cons, anyHasPoint_cons, Fragment.HasPoint,
      Fragment.HasPoint, Fragment.HasPoint, htrue, Interval.mem_congr hscale]
    grind
  | next _ _ ih =>
    rw [ih, anyHasPoint_cons, anyHasPoint_cons]
    grind

/-- Bringing fragments into order keeps their points. -/
theorem hasPoint_compact (hs : Simplifier.KeepsTruth c.simplify α) (h : c.compact fs = .ok gs) :
    AnyHasPoint x α gs ↔ AnyHasPoint x α fs := by
  rw [(joins_of_joinEqual h).hasPoint_iff hs, or_iff_right anyHasPoint_nil,
    anyHasPoint_perm (List.mergeSort_perm fs _)]

variable {π : Type} {r : Rule π} {rules answer : List (Rule π)} {steps : List (Step π)}

/-- Adding a rule adds its points. -/
theorem hasPoint_addRule (hs : Simplifier.KeepsTruth c.simplify α)
    (h : c.addRule r = .ok (answer, next)) :
    next.HasPoint x α ↔ c.HasPoint x α ∨ r.selector.HasPoint x α := by
  obtain ⟨incoming, hincoming, hcases⟩ := addRule_cases h
  rw [← hasPoint_toFragments hs hincoming, HasPoint, HasPoint]
  rcases hcases with ⟨hempty, -, rfl⟩ | ⟨left, hleft, hcases⟩
  · rw [hempty, or_iff_right anyHasPoint_nil]
  have hnew := hasPoint_remainder (x := x) hs hleft
  rcases hcases with ⟨rfl, -, rfl⟩ | ⟨fs, hfs, -, rfl⟩
  · -- what the rule has was there already
    rw [iff_false_left anyHasPoint_nil, not_and, not_not] at hnew
    exact (or_iff_left_of_imp hnew).symm
  · rw [hasPoint_compact hs hfs, anyHasPoint_append, hnew]
    grind

/-- What a coverage has after some steps is what was added to it. -/
theorem hasPoint_steps (hcat : schema.HasPlainCategories) (hc : c.schema = some schema)
    (hrules : c.HasPoint x α ↔ ∃ q ∈ rules, q.selector.HasPoint x α) :
    (c.after steps).schema = some schema ∧
      ((c.after steps).HasPoint x α ↔ ∃ q ∈ c.added rules steps, q.selector.HasPoint x α) := by
  induction steps generalizing c rules with
  | nil => exact ⟨hc, hrules⟩
  | cons step steps ih =>
    rw [after_cons, added]
    refine ih ((c.take_schema step).trans hc) ?_
    cases step with
    | reset => exact iff_of_false anyHasPoint_nil (by simp [addedBy])
    | add r =>
      rw [addedBy]
      cases h : c.addRule r with
      | error e =>
        rw [take_add_of_error h]
        exact hrules
      | ok result =>
        rw [take_add_of_ok h, hasPoint_addRule (keepsTruth_simplify hcat hc α) h, hrules]
        simp only [List.mem_append, List.mem_singleton, or_and_right, exists_or, exists_eq_left]

/-- **After any run of steps** a coverage has the points of the rules that were added since it was
last reset. -/
theorem hasPoint_after (hcat : schema.HasPlainCategories) (config : Config)
    (steps : List (Step π)) :
    let start : Coverage := { schema := some schema, config := config }
    (start.after steps).schema = some schema ∧
      ((start.after steps).HasPoint x α ↔
        ∃ q ∈ start.added [] steps, q.selector.HasPoint x α) :=
  hasPoint_steps hcat rfl (iff_of_false anyHasPoint_nil (by simp))

end Coverage

end RuleCoverage
