import RuleCoverage.Interval.Set
import RuleCoverage.Proofs.Interval.Points

/-!
# The points of a union of intervals

`IntervalSet.Mem s x` says that the point `x` of the extended real line lies in one of the intervals
of `s`.  Bringing a list of intervals into canonical form neither loses nor adds a point
(`IntervalSet.mem_ofList`), so the operations on sets are the operations on their points.

## What is here

* `IntervalSet.mem_union`, `IntervalSet.mem_inter`, `IntervalSet.mem_complement` — the operations.
* `IntervalSet.isEmpty_iff`, `IntervalSet.subset_iff` — the questions: a set without intervals has
  no points and one with an interval has some, also where no double lies in it.
* `IntervalSet.mem_of_points?` — a set of single points holds just these.
-/

set_option autoImplicit false

namespace RuleCoverage

namespace IntervalSet

variable {s t : IntervalSet} {x : EReal}

/-- The point lies in one of the intervals. -/
def Mem (s : IntervalSet) (x : EReal) : Prop := ∃ iv ∈ s.intervals, iv.Mem x

/-! ## Canonical form -/

/-- Joining the intervals of a sorted list keeps their points. -/
theorem exists_mem_joinSorted {last : Interval} {ivs : List Interval}
    (h : Ascending (last :: ivs)) :
    (∃ iv ∈ joinSorted last ivs, iv.Mem x) ↔ ∃ iv ∈ last :: ivs, iv.Mem x := by
  induction ivs generalizing last with
  | nil => rw [joinSorted]
  | cons iv rest ih =>
    rw [joinSorted]
    split
    · rename_i hmeet
      have hle : last.lowCut ≤ iv.lowCut := List.rel_of_pairwise_cons h (List.mem_cons_self)
      rw [ih (ascending_extend h)]
      simp only [List.mem_cons, exists_eq_or_imp, Interval.mem_extend hle hmeet, or_assoc]
    · have hrest := ih (List.pairwise_cons.1 h).2
      simp only [List.mem_cons, exists_eq_or_imp] at hrest ⊢
      rw [hrest]

/-- **The canonical form of a list of intervals has the same points.** -/
theorem exists_mem_normalize (ivs : List Interval) (x : EReal) :
    (∃ iv ∈ normalize ivs, iv.Mem x) ↔ ∃ iv ∈ ivs, iv.Mem x := by
  have hsorted := List.pairwise_mergeSort Interval.precedes_trans Interval.precedes_total
    (ivs.filter fun iv ↦ !iv.isEmpty)
  -- what the sorted list holds: the intervals that are not empty
  have hmem : (∃ iv ∈ (ivs.filter fun iv ↦ !iv.isEmpty).mergeSort Interval.precedes, iv.Mem x) ↔
      ∃ iv ∈ ivs, iv.Mem x := by
    simp only [List.mem_mergeSort, List.mem_filter, Bool.not_eq_true']
    constructor
    · rintro ⟨iv, ⟨hiv, -⟩, hx⟩
      exact ⟨iv, hiv, hx⟩
    · rintro ⟨iv, hiv, hx⟩
      refine ⟨iv, ⟨hiv, ?_⟩, hx⟩
      cases he : iv.isEmpty with
      | false => rfl
      | true => exact absurd hx (iv.isEmpty_iff_forall.1 he x)
  rw [← hmem, normalize]
  split
  · rename_i heq
    rw [heq]
  · rename_i iv rest heq
    rw [heq] at hsorted ⊢
    refine exists_mem_joinSorted (hsorted.imp fun h ↦ ?_)
    rw [Interval.precedes_iff] at h
    omega

theorem mem_ofList (ivs : List Interval) (x : EReal) :
    (ofList ivs).Mem x ↔ ∃ iv ∈ ivs, iv.Mem x := exists_mem_normalize ivs x

/-! ## Operations -/

@[simp] theorem not_mem_empty (x : EReal) : ¬ (∅ : IntervalSet).Mem x := by
  rintro ⟨iv, hiv, -⟩
  cases hiv

@[simp] theorem mem_full (x : EReal) : full.Mem x := by
  rw [full, mem_ofList]
  exact ⟨_, List.mem_singleton_self _, Interval.mem_realLine x⟩

theorem mem_points (xs : List Double) (x : EReal) :
    (points xs).Mem x ↔ ∃ d ∈ xs, x = d.toEReal := by
  simp only [points, mem_ofList, List.mem_map, exists_exists_and_eq_and, Interval.mem_point]

@[simp] theorem mem_union (s t : IntervalSet) (x : EReal) :
    (s.union t).Mem x ↔ s.Mem x ∨ t.Mem x := by
  rw [union, mem_ofList, Mem, Mem]
  simp only [List.mem_append, or_and_right, exists_or]

@[simp] theorem mem_inter (s t : IntervalSet) (x : EReal) :
    (s.inter t).Mem x ↔ s.Mem x ∧ t.Mem x := by
  rw [inter, mem_ofList, Mem, Mem]
  simp only [List.mem_flatMap, List.mem_filterMap]
  constructor
  · rintro ⟨c, ⟨a, ha, b, hb, hc⟩, hx⟩
    obtain ⟨hax, hbx⟩ := (Interval.mem_intersect? a b x).1 ⟨c, hc, hx⟩
    exact ⟨⟨a, ha, hax⟩, b, hb, hbx⟩
  · rintro ⟨⟨a, ha, hax⟩, b, hb, hbx⟩
    obtain ⟨c, hc, hx⟩ := (Interval.mem_intersect? a b x).2 ⟨hax, hbx⟩
    exact ⟨c, ⟨a, ha, b, hb, hc⟩, hx⟩

/-- Taking intervals away one after another leaves what lies in none of them. -/
theorem exists_mem_subtractAll (ivs rest : List Interval) (x : EReal) :
    (∃ p ∈ ivs.foldl (fun rest iv ↦ rest.flatMap (·.subtract iv)) rest, p.Mem x) ↔
      (∃ p ∈ rest, p.Mem x) ∧ ∀ iv ∈ ivs, ¬ iv.Mem x := by
  induction ivs generalizing rest with
  | nil => simp
  | cons iv ivs ih =>
    have hstep : (∃ p ∈ rest.flatMap (·.subtract iv), p.Mem x) ↔
        (∃ p ∈ rest, p.Mem x) ∧ ¬ iv.Mem x := by
      simp only [List.mem_flatMap]
      constructor
      · rintro ⟨p, ⟨a, ha, hp⟩, hx⟩
        obtain ⟨hax, hiv⟩ := (Interval.mem_subtract a iv x).1 ⟨p, hp, hx⟩
        exact ⟨⟨a, ha, hax⟩, hiv⟩
      · rintro ⟨⟨a, ha, hax⟩, hiv⟩
        obtain ⟨p, hp, hx⟩ := (Interval.mem_subtract a iv x).2 ⟨hax, hiv⟩
        exact ⟨p, ⟨a, ha, hp⟩, hx⟩
    rw [List.foldl_cons, ih, hstep, List.forall_mem_cons, and_assoc]

@[simp] theorem mem_complement (s : IntervalSet) (x : EReal) : s.complement.Mem x ↔ ¬ s.Mem x := by
  have hline : ∃ p ∈ [Interval.realLine], p.Mem x :=
    ⟨_, List.mem_singleton_self _, Interval.mem_realLine x⟩
  rw [complement, mem_ofList, exists_mem_subtractAll, and_iff_right hline, Mem]
  simp only [not_exists, not_and]

/-! ## Questions -/

/-- **A set is empty exactly when it has no points.** -/
theorem isEmpty_iff (s : IntervalSet) : s.isEmpty = true ↔ ∀ x, ¬ s.Mem x := by
  rw [isEmpty, List.isEmpty_iff]
  constructor
  · rintro h x ⟨iv, hiv, -⟩
    rw [h] at hiv
    cases hiv
  · intro h
    rw [List.eq_nil_iff_forall_not_mem]
    intro iv hiv
    obtain ⟨x, hx⟩ := Interval.exists_mem (s.canonical.nonempty iv hiv)
    exact h x ⟨iv, hiv, hx⟩

theorem subset_iff (s t : IntervalSet) : s.subset t = true ↔ ∀ x, s.Mem x → t.Mem x := by
  rw [subset, isEmpty_iff]
  simp only [mem_inter, mem_complement, not_and, not_not]

/-- Equal lists of intervals hold the same points. -/
theorem exists_mem_congr : ∀ {as bs : List Interval}, (as == bs) = true →
    ((∃ iv ∈ as, iv.Mem x) ↔ ∃ iv ∈ bs, iv.Mem x)
  | [], [], _ => Iff.rfl
  | a :: as, b :: bs, h => by
    rw [List.cons_beq_cons, Bool.and_eq_true] at h
    simp only [List.mem_cons, exists_eq_or_imp, Interval.mem_congr h.1, exists_mem_congr h.2]
  | [], _ :: _, h => by cases h
  | _ :: _, [], h => by cases h

theorem mem_congr (h : (s == t) = true) : s.Mem x ↔ t.Mem x := exists_mem_congr h

theorem mem_of_points? {xs : List Double} (h : s.points? = some xs) (x : EReal) :
    s.Mem x ↔ ∃ d ∈ xs, x = d.toEReal := by
  rw [points?] at h
  split at h
  · rename_i hall
    cases h
    rw [List.all_eq_true] at hall
    simp only [Mem, List.mem_map, exists_exists_and_eq_and]
    refine exists_congr fun iv ↦ and_congr_right fun hiv ↦ ?_
    exact Interval.mem_of_isPoint (hall iv hiv) x
  · cases h

end IntervalSet

end RuleCoverage
