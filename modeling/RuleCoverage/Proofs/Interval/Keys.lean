import Mathlib.Data.Prod.Lex
import RuleCoverage.Proofs.Interval.Points

/-!
# Intervals by the keys of their bounds

The key of a bound is its number together with `0` or `1`, which breaks ties: at a start an included
bound comes first, at an end an excluded one does.  Overlap and difference can be computed by
comparing keys and putting the bounds that are found together, with a check that they are in order
and a test for emptiness afterwards.  Keys are in the order of cuts (`Interval.lowKey_lt_iff`,
`Interval.highKey_lt_iff`), so this finds what counting cuts finds, and the check never fails
(`Interval.intersectByKeys_eq`, `Interval.subtractByKeys_eq`).

`Interval.intersect_subtract_exact` says what overlap and difference are as sets of points.
-/

set_option autoImplicit false

namespace RuleCoverage

namespace Interval

variable {a b : Interval} {x y : EReal}

/-! ## Keys -/

/-- The key of a bound: the place of the double on the line, and the number that goes with it. -/
def boundKey (bound : Double × Nat) : ℤ ×ₗ ℕ := toLex (bound.1.key, bound.2)

/-- The key by which intervals are sorted: that of the start and then that of the end. -/
def sortKey (iv : Interval) : (ℤ ×ₗ ℕ) ×ₗ (ℤ ×ₗ ℕ) :=
  toLex (boundKey iv.lowKey, boundKey iv.highKey)

theorem lowKey_lt_iff : boundKey a.lowKey < boundKey b.lowKey ↔ a.lowCut < b.lowCut := by
  rw [boundKey, boundKey, Prod.Lex.toLex_lt_toLex, lowKey, lowKey, lowCut, lowCut]
  cases a.lowIncluded <;> cases b.lowIncluded <;> simp <;> omega

theorem highKey_lt_iff : boundKey a.highKey < boundKey b.highKey ↔ a.highCut < b.highCut := by
  rw [boundKey, boundKey, Prod.Lex.toLex_lt_toLex, highKey, highKey, highCut, highCut]
  cases a.highIncluded <;> cases b.highIncluded <;> simp <;> omega

theorem lowKey_le_iff : boundKey a.lowKey ≤ boundKey b.lowKey ↔ a.lowCut ≤ b.lowCut := by
  rw [← not_lt, lowKey_lt_iff, Int.not_lt]

theorem highKey_le_iff : boundKey a.highKey ≤ boundKey b.highKey ↔ a.highCut ≤ b.highCut := by
  rw [← not_lt, highKey_lt_iff, Int.not_lt]

theorem lowKey_eq_iff : boundKey a.lowKey = boundKey b.lowKey ↔ a.lowCut = b.lowCut := by
  rw [le_antisymm_iff, lowKey_le_iff, lowKey_le_iff]
  omega

theorem highKey_eq_iff : boundKey a.highKey = boundKey b.highKey ↔ a.highCut = b.highCut := by
  rw [le_antisymm_iff, highKey_le_iff, highKey_le_iff]
  omega

theorem sortKey_lt_iff : a.sortKey < b.sortKey ↔
    a.lowCut < b.lowCut ∨ (a.lowCut = b.lowCut ∧ a.highCut < b.highCut) := by
  rw [sortKey, sortKey, Prod.Lex.toLex_lt_toLex, lowKey_lt_iff, lowKey_eq_iff, highKey_lt_iff]

/-- **Intervals are equal just when their keys are.** -/
theorem beq_iff_sortKey : (a == b) = true ↔ a.sortKey = b.sortKey := by
  have hcuts : (a == b) = true ↔ a.lowCut = b.lowCut ∧ a.highCut = b.highCut := by
    simp [BEq.beq]
  rw [hcuts, sortKey, sortKey, toLex_inj, Prod.mk.injEq, lowKey_eq_iff, highKey_eq_iff]

theorem precedes_iff_sortKey : a.precedes b = true ↔ a.sortKey ≤ b.sortKey := by
  rw [← not_lt, sortKey_lt_iff, precedes_iff]
  omega

theorem beq_congr_left {c : Interval} (h : (a == b) = true) : (a == c) = (b == c) := by
  rw [Bool.eq_iff_iff, beq_iff_sortKey, beq_iff_sortKey, beq_iff_sortKey.1 h]

/-! ## Emptiness and order -/

/-- An interval is empty when its bounds are one number and do not both belong to it. -/
def isEmptyByBounds (iv : Interval) : Bool :=
  iv.low == iv.high && !(iv.lowIncluded && iv.highIncluded)

theorem isEmptyByBounds_eq (iv : Interval) : iv.isEmptyByBounds = iv.isEmpty := by
  have hle := iv.low_le_high
  rw [Double.le_def] at hle
  rw [Bool.eq_iff_iff, isEmpty_iff, isEmptyByBounds, Bool.and_eq_true, Double.beq_iff, lowCut,
    highCut]
  cases iv.lowIncluded <;> cases iv.highIncluded <;> simp <;> omega

theorem isEmpty_eq_false_iff (iv : Interval) : iv.isEmpty = false ↔ ∃ x, iv.Mem x := by
  rw [← Bool.not_eq_true, isEmpty_iff_forall, not_forall_not]

/-- Every point of the one interval is below every point of the other. -/
def Below (a b : Interval) : Prop := ∀ x y, a.Mem x → b.Mem y → x < y

/-- The points on the near side of a cut are below those on the far side. -/
theorem lt_of_passed {d : Double} {after : Bool} (hx : ¬ Passed d after x)
    (hy : Passed d after y) : x < y := by
  rw [Passed, not_or] at hx
  have hxd := not_lt.1 hx.1
  rcases hy with hy | ⟨hafter, hy⟩
  · exact hxd.trans_lt hy
  · exact lt_of_le_of_ne (hy ▸ hxd) fun heq ↦ hx.2 ⟨hafter, hy.trans heq.symm⟩

/-- Two intervals have no overlap just when they share no point. -/
theorem intersect?_eq_none_iff (a b : Interval) :
    a.intersect? b = none ↔ ∀ x, ¬ (a.Mem x ∧ b.Mem x) := by
  simp only [← mem_intersect?]
  constructor
  · rintro h x ⟨c, hc, -⟩
    rw [h] at hc
    cases hc
  · intro h
    rw [Option.eq_none_iff_forall_ne_some]
    intro c hc
    obtain ⟨x, hx⟩ := exists_mem (nonempty_of_intersect? hc)
    exact h x ⟨c, hc, hx⟩

/-- The overlap holds the points that both intervals hold. -/
theorem mem_of_intersect? {c : Interval} (h : a.intersect? b = some c) (x : EReal) :
    c.Mem x ↔ a.Mem x ∧ b.Mem x := by
  rw [← mem_intersect?, h]
  simp

/-- The part before the subtracted interval lies below the part after it. -/
theorem below_of_before?_of_after? {p q : Interval} (hmeet : b.lowCut ≤ b.highCut)
    (hp : a.before? b = some p) (hq : a.after? b = some q) : p.Below q := by
  intro x y hx hy
  have hbefore := (mem_before? a b x).1 ⟨p, hp, hx⟩
  have hafter := (mem_after? a b y).1 ⟨q, hq, hy⟩
  exact lt_of_passed hbefore.2 (hafter.1.started hmeet)

/-- The parts that a subtraction leaves are in increasing order. -/
theorem pairwise_below_subtract (a b : Interval) : (a.subtract b).Pairwise Below := by
  rw [subtract]
  split
  · exact .nil
  split
  · rename_i hmeet
    rw [intersects, isSome_intersect?_iff] at hmeet
    refine List.Pairwise.filter _ ?_
    rw [List.pairwise_append]
    refine ⟨?_, ?_, ?_⟩
    · cases a.before? b <;> simp
    · cases a.after? b <;> simp
    · intro p hp q hq
      exact below_of_before?_of_after? (by omega) (Option.mem_toList.1 hp)
        (Option.mem_toList.1 hq)
  · exact List.pairwise_singleton ..

/-- Subtracting an interval that shares no point changes nothing. -/
theorem subtract_of_disjoint (hne : a.isEmpty = false) (h : ∀ x, ¬ (a.Mem x ∧ b.Mem x)) :
    a.subtract b = [a] := by
  rw [← intersect?_eq_none_iff] at h
  rw [subtract, hne, intersects, h]
  rfl

/-! ## Overlap and difference by keys -/

/-- Two numbers in order pass the check of bounds. -/
theorem ofReadings_of_le {l h : Double} (hle : l ≤ h) (li hi : Bool) :
    ofReadings (.number l) (.number h) li hi = .ok ⟨l, h, li, hi, hle⟩ := dif_pos hle

/-- The overlap, from the greater one of the low keys to the smaller one of the high keys. -/
def intersectByKeys (a b : Interval) : Except Error (Option Interval) :=
  let lo := if boundKey b.lowKey ≤ boundKey a.lowKey then a else b
  let hi := if boundKey a.highKey ≤ boundKey b.highKey then a else b
  if hi.high < lo.low then .ok none
  else do
    let overlap ← ofReadings (.number lo.low) (.number hi.high) lo.lowIncluded hi.highIncluded
    return if overlap.isEmptyByBounds then none else some overlap

/-- The part of `a` before `b`, when `a` has the smaller low key. -/
def beforeByKeys (a b : Interval) : Except Error (List Interval) :=
  if boundKey a.lowKey < boundKey b.lowKey then do
    return [← ofReadings (.number a.low) (.number b.low) a.lowIncluded (!b.lowIncluded)]
  else return []

/-- The part of `a` after `b`, when `a` has the greater high key. -/
def afterByKeys (a b : Interval) : Except Error (List Interval) :=
  if boundKey b.highKey < boundKey a.highKey then do
    return [← ofReadings (.number b.high) (.number a.high) (!b.highIncluded) a.highIncluded]
  else return []

/-- The parts of `a` that `b` leaves. -/
def subtractByKeys (a b : Interval) : Except Error (List Interval) := do
  if a.isEmptyByBounds then return []
  if (← a.intersectByKeys b).isNone then return [a]
  let pieces := (← a.beforeByKeys b) ++ (← a.afterByKeys b)
  return pieces.filter fun piece ↦ !piece.isEmptyByBounds

/-- **The bounds of an overlap pass their check**, and comparing keys finds the same ones. -/
theorem intersectByKeys_eq (a b : Interval) : a.intersectByKeys b = .ok (a.intersect? b) := by
  simp only [intersectByKeys, lowKey_le_iff, highKey_le_iff]
  obtain ⟨lo, hi, hlo, hhi, heq⟩ := intersect?_eq a b
  rw [← hlo, ← hhi, heq]
  split
  · rename_i hrev
    rw [Double.lt_def] at hrev
    have hcuts : ¬ lo.lowCut < hi.highCut := fun hlt ↦
      Int.not_lt.2 ((Double.le_def _ _).1 (low_le_high_of_cuts hlt)) hrev
    rw [dif_neg hcuts]
  · rename_i hle
    rw [Double.lt_def, Int.not_lt] at hle
    rw [ofReadings_of_le ((Double.le_def _ _).2 hle)]
    -- the overlap is empty just when its cuts are not in order
    by_cases hlt : lo.lowCut < hi.highCut
    · rw [dif_pos hlt]
      refine congrArg Except.ok (if_neg ?_)
      rw [isEmptyByBounds_eq, isEmpty_iff]
      exact Int.not_le.2 hlt
    · rw [dif_neg hlt]
      refine congrArg Except.ok (if_pos ?_)
      rw [isEmptyByBounds_eq, isEmpty_iff]
      exact Int.not_lt.1 hlt

theorem beforeByKeys_eq (a b : Interval) : a.beforeByKeys b = .ok (a.before? b).toList := by
  simp only [beforeByKeys, lowKey_lt_iff, before?]
  split
  · rename_i hlt
    rw [ofReadings_of_le (low_le_low_of_cuts hlt)]
    rfl
  · rfl

theorem afterByKeys_eq (a b : Interval) : a.afterByKeys b = .ok (a.after? b).toList := by
  simp only [afterByKeys, highKey_lt_iff, after?]
  split
  · rename_i hlt
    rw [ofReadings_of_le (high_le_high_of_cuts hlt)]
    rfl
  · rfl

/-- **A difference by keys never fails** and leaves the same parts. -/
theorem subtractByKeys_eq (a b : Interval) : a.subtractByKeys b = .ok (a.subtract b) := by
  simp only [subtractByKeys, isEmptyByBounds_eq, intersectByKeys_eq, beforeByKeys_eq,
    afterByKeys_eq]
  rw [subtract, intersects]
  cases a.isEmpty with
  | true => rfl
  | false => cases a.intersect? b <;> rfl

/-! ## Exactness -/

/-- **Overlap and difference are exact on points.**  Lying in an interval is a comparison with its
bounds, for doubles just what `contains` computes.  There is no overlap when no point is in both
intervals, and else it holds the points that are.  A difference leaves at most two parts, not empty
and one below the other, which hold the points of the one interval that are not in the other. -/
theorem intersect_subtract_exact (a b : Interval) :
    ((∀ x, a.Mem x ↔ (a.low.toEReal < x ∨ a.lowIncluded = true ∧ a.low.toEReal = x) ∧
        (x < a.high.toEReal ∨ a.highIncluded = true ∧ x = a.high.toEReal)) ∧
      (∀ d, a.contains d = true ↔ a.Mem d.toEReal) ∧
      (a.isEmpty = false ↔ ∃ x, a.Mem x)) ∧
    (a.intersectByKeys b = .ok (a.intersect? b) ∧
      (a.intersect? b = none ↔ ∀ x, ¬ (a.Mem x ∧ b.Mem x)) ∧
      ∀ c, a.intersect? b = some c →
        c.isEmpty = false ∧ ∀ x, c.Mem x ↔ a.Mem x ∧ b.Mem x) ∧
    (a.subtractByKeys b = .ok (a.subtract b) ∧
      (a.subtract b).length ≤ 2 ∧
      (∀ piece ∈ a.subtract b, piece.isEmpty = false) ∧
      (a.subtract b).Pairwise Below ∧
      (∀ x, (∃ piece ∈ a.subtract b, piece.Mem x) ↔ a.Mem x ∧ ¬ b.Mem x) ∧
      (a.isEmpty = false → (∀ x, ¬ (a.Mem x ∧ b.Mem x)) → a.subtract b = [a])) := by
  refine ⟨⟨a.mem_iff, a.contains_iff_mem, a.isEmpty_eq_false_iff⟩, ⟨intersectByKeys_eq a b,
    intersect?_eq_none_iff a b, ?_⟩, subtractByKeys_eq a b, length_subtract_le a b,
    fun _ ↦ isEmpty_of_mem_subtract, pairwise_below_subtract a b, mem_subtract a b,
    subtract_of_disjoint⟩
  intro c hc
  refine ⟨?_, mem_of_intersect? hc⟩
  rw [isEmpty_eq_false_iff]
  exact exists_mem (nonempty_of_intersect? hc)

end Interval

end RuleCoverage
