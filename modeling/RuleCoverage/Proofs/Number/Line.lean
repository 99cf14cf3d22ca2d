import Mathlib.Data.EReal.Basic
import Mathlib.Data.Rat.Cast.Order
import Mathlib.Order.Monotone.Basic
import RuleCoverage.Number.Double

/-!
# Doubles as points of the extended real line

A double is compared by an integer, its `Double.key`, and it stands for an exact number, its
`Double.value`.  This file says that the two agree: a double has the smaller key exactly when it
stands for the smaller number.  Value sets are decided on keys, but what they contain are points of
the extended real line, so every statement about their points rests on this.

## What is here

* `Extended.toEReal` — an exact number as a point of Mathlib's `EReal`; it keeps the order
  (`Extended.toEReal_lt_toEReal`) and forgets nothing (`Extended.toEReal_inj`).
* `rankUnits_strictMono` — the magnitudes of the doubles grow with their ranks, also from one
  binade to the next.
* `Double.toEReal_lt_toEReal`, `Double.toEReal_inj` — the keys decide order and equality.
-/

set_option autoImplicit false

namespace RuleCoverage

/-! ## Exact numbers -/

namespace Extended

/-- An exact number as a point of the extended real line. -/
noncomputable def toEReal : Extended → EReal
  | .negInf => ⊥
  | .finite v => ((v : ℝ) : EReal)
  | .posInf => ⊤

@[simp] theorem toEReal_negInf : negInf.toEReal = ⊥ := rfl

@[simp] theorem toEReal_posInf : posInf.toEReal = ⊤ := rfl

@[simp] theorem toEReal_finite (v : Rat) : (finite v).toEReal = ((v : ℝ) : EReal) := rfl

theorem toEReal_lt_toEReal {x y : Extended} : x.toEReal < y.toEReal ↔ x < y := by
  cases x <;> cases y <;> simp [lt_def, blt]

theorem toEReal_inj {x y : Extended} : x.toEReal = y.toEReal ↔ x = y := by
  cases x <;> cases y <;> simp

theorem toEReal_le_toEReal {x y : Extended} : x.toEReal ≤ y.toEReal ↔ x ≤ y := by
  rw [← not_iff_not, not_le, toEReal_lt_toEReal, ← Extended.not_lt, not_not]

/-- Two exact numbers are compared as the points that they stand for. -/
theorem compare_eq (x y : Extended) :
    x.compare y = if x.toEReal < y.toEReal then .lt else if y.toEReal < x.toEReal then .gt
      else .eq := by
  simp only [compare, toEReal_lt_toEReal]

end Extended

/-! ## Magnitudes -/

theorem twoPow_pos (k : Nat) : 0 < twoPow k := Nat.pow_pos (by decide)

theorem twoPow_succ (k : Nat) : twoPow (k + 1) = 2 * twoPow k := Nat.pow_succ'

theorem unitsOfOne_pos : 0 < unitsOfOne := twoPow_pos 1074

theorem rankUnits_of_lt {r : Nat} (h : r < binadeSize) : rankUnits r = r := by
  rw [rankUnits, if_pos h]

/-- A rank by its binade and its place in there. -/
theorem rankUnits_binade (e : Nat) {m : Nat} (h : m < binadeSize) :
    rankUnits ((e + 1) * binadeSize + m) = (binadeSize + m) * twoPow e := by
  have hpos : 0 < binadeSize := by decide
  have hdiv : ((e + 1) * binadeSize + m) / binadeSize = e + 1 := by
    rw [Nat.mul_comm, Nat.mul_add_div hpos, Nat.div_eq_of_lt h, Nat.add_zero]
  have hmod : ((e + 1) * binadeSize + m) % binadeSize = m := by
    rw [Nat.mul_add_mod_self_right, Nat.mod_eq_of_lt h]
  have hge : ¬ (e + 1) * binadeSize + m < binadeSize := by
    rw [Nat.add_mul, Nat.one_mul]
    omega
  rw [rankUnits, if_neg hge, hdiv, hmod, Nat.add_sub_cancel]

theorem rankUnits_lt_succ (r : Nat) : rankUnits r < rankUnits (r + 1) := by
  by_cases hr : r + 1 < binadeSize
  · rw [rankUnits_of_lt (by omega), rankUnits_of_lt hr]
    omega
  by_cases hr' : r + 1 = binadeSize
  · -- the first normal double: the spacing does not change yet
    have h := rankUnits_binade 0 (m := 0) (by decide)
    rw [rankUnits_of_lt (by omega), hr']
    have : (binadeSize + 0) * twoPow 0 = binadeSize := by decide
    rw [Nat.add_zero, Nat.zero_add, Nat.one_mul] at h
    omega
  obtain ⟨e, m, hm, rfl⟩ : ∃ e m, m < binadeSize ∧ r = (e + 1) * binadeSize + m := by
    refine ⟨r / binadeSize - 1, r % binadeSize, Nat.mod_lt _ (by decide), ?_⟩
    have hdiv : 0 < r / binadeSize := Nat.div_pos (by omega) (by decide)
    rw [Nat.sub_add_cancel hdiv, Nat.mul_comm, Nat.div_add_mod]
  have hpos := twoPow_pos e
  rw [rankUnits_binade e hm]
  by_cases hm' : m + 1 < binadeSize
  · rw [Nat.add_assoc, rankUnits_binade e hm']
    exact Nat.mul_lt_mul_of_pos_right (by omega) hpos
  · -- from the last double of a binade to the first of the next, whose spacing is twice as large
    have hnext : (e + 1) * binadeSize + m + 1 = (e + 1 + 1) * binadeSize + 0 := by
      rw [Nat.add_mul (e + 1) 1, Nat.one_mul]
      omega
    rw [hnext, rankUnits_binade (e + 1) (by decide), twoPow_succ]
    calc (binadeSize + m) * twoPow e
        < 2 * binadeSize * twoPow e := Nat.mul_lt_mul_of_pos_right (by omega) hpos
      _ = (binadeSize + 0) * (2 * twoPow e) := by ring

theorem rankUnits_strictMono : StrictMono rankUnits := strictMono_nat_of_lt_succ rankUnits_lt_succ

theorem rankUnits_zero : rankUnits 0 = 0 := rankUnits_of_lt (by decide)

/-! ## Doubles -/

namespace Double

/-- The point of the extended real line that a double stands for. -/
noncomputable def toEReal (x : Double) : EReal := x.value.toEReal

/-- The magnitude with the sign of the double. -/
def signedUnits (x : Double) : Int := if x.negative then -(x.units : Int) else x.units

theorem value_of_finite {x : Double} (h : x.isInfinite = false) :
    x.value = .finite (mkRat x.signedUnits unitsOfOne) := by
  rw [value, if_neg (by simp [h]), signedUnits]

theorem value_of_infinite {x : Double} (h : x.isInfinite = true) :
    x.value = if x.negative then .negInf else .posInf := by
  rw [value, if_pos h]

/-- Units are in the order of ranks, so signed units are in the order of keys. -/
theorem signedUnits_lt_iff {x y : Double} : x.signedUnits < y.signedUnits ↔ x.key < y.key := by
  have hxy := rankUnits_strictMono.lt_iff_lt (a := x.rank) (b := y.rank)
  have hyx := rankUnits_strictMono.lt_iff_lt (a := y.rank) (b := x.rank)
  have hx := rankUnits_strictMono.lt_iff_lt (a := 0) (b := x.rank)
  have hy := rankUnits_strictMono.lt_iff_lt (a := 0) (b := y.rank)
  rw [rankUnits_zero] at hx hy
  rw [signedUnits, signedUnits, key, key, units, units]
  split <;> split <;> omega

theorem mkRat_lt_mkRat {m n : Int} : mkRat m unitsOfOne < mkRat n unitsOfOne ↔ m < n := by
  have hpos : (0 : ℚ) < (unitsOfOne : ℚ) := by exact_mod_cast unitsOfOne_pos
  rw [Rat.mkRat_eq_div, Rat.mkRat_eq_div, div_lt_div_iff_of_pos_right hpos]
  exact Int.cast_lt

theorem isInfinite_iff (x : Double) : x.isInfinite = true ↔ x.rank = infinityRank := by
  rw [isInfinite, beq_iff_eq]

/-- **The keys of doubles are in the order of the numbers that the doubles stand for.** -/
theorem value_lt_value {x y : Double} : x.value < y.value ↔ x.key < y.key := by
  have hx := x.rank_le
  have hy := y.rank_le
  have hxi := x.isInfinite_iff
  have hyi := y.isInfinite_iff
  have hpos : 0 < infinityRank := by decide
  cases hx' : x.isInfinite <;> cases hy' : y.isInfinite
  · rw [value_of_finite hx', value_of_finite hy', ← signedUnits_lt_iff, ← mkRat_lt_mkRat]
    simp [Extended.lt_def, Extended.blt]
  all_goals
    simp only [hx', hy', Bool.false_eq_true, false_iff, true_iff] at hxi hyi
    simp only [hx', hy', value_of_finite, value_of_infinite, key]
    cases x.negative <;> cases y.negative <;>
      simp [Extended.lt_def, Extended.blt] <;> omega

theorem toEReal_lt_toEReal {x y : Double} : x.toEReal < y.toEReal ↔ x.key < y.key :=
  Extended.toEReal_lt_toEReal.trans value_lt_value

theorem toEReal_le_toEReal {x y : Double} : x.toEReal ≤ y.toEReal ↔ x.key ≤ y.key := by
  rw [← not_lt, toEReal_lt_toEReal, Int.not_lt]

theorem toEReal_inj {x y : Double} : x.toEReal = y.toEReal ↔ x.key = y.key := by
  rw [le_antisymm_iff, toEReal_le_toEReal, toEReal_le_toEReal]
  omega

@[simp] theorem toEReal_negInf : negInf.toEReal = ⊥ := rfl

@[simp] theorem toEReal_posInf : posInf.toEReal = ⊤ := rfl

end Double

end RuleCoverage
