import RuleCoverage.Literal.Number
import RuleCoverage.Proofs.Number.Line

/-!
# Whole numbers that are doubles

Rounding a whole number to a double changes nothing where there is a double that is equal to it
(`Double.ofInt?_of_value`): the spacing that the number is divided by is the one of that double, and
nothing is left over.
-/

set_option autoImplicit false

namespace RuleCoverage

theorem roundHalfEven_mul {den : Nat} (h : 0 < den) (q : Nat) :
    roundHalfEven (q * den) den = q := by
  rw [roundHalfEven]
  simp only [Nat.mul_div_left q h, Nat.mul_mod_left]
  rw [if_pos (by omega)]

theorem twoPow_add (a b : Nat) : twoPow (a + b) = twoPow a * twoPow b := Nat.pow_add 2 a b

theorem twoPow_eq (k : Nat) : twoPow k = 2 ^ k := rfl

theorem twoPow_le_twoPow {a b : Nat} (h : a ≤ b) : twoPow a ≤ twoPow b :=
  Nat.pow_le_pow_right (by decide) h

theorem floorLog2_one {num : Nat} (h : num ≠ 0) : floorLog2 num 1 = num.log2 := by
  have hle : twoPow num.log2 ≤ num := Nat.log2_self_le h
  have hlog : Nat.log2 1 = 0 := by decide
  have hk : (num.log2 : Int) - (Nat.log2 1 : Nat) = num.log2 := by rw [hlog]; omega
  have hnot : ¬ num < twoPow num.log2 := by omega
  simp [floorLog2, hk, hnot]

/-- The place of a whole number among the doubles of its own spacing. -/
def placeInBinade (num : Nat) : Nat :=
  if 52 ≤ num.log2 then roundHalfEven num (twoPow (num.log2 - 52))
  else num * twoPow (52 - num.log2)

theorem nearestRank_one {num : Nat} (h : num ≠ 0) :
    nearestRank num 1 =
      min ((num.log2 + 1022) * binadeSize + placeInBinade num) infinityRank := by
  have he : max (floorLog2 num 1 - 52) (-1074) = (num.log2 : Int) - 52 := by
    rw [floorLog2_one h]
    omega
  have hbase : ((num.log2 : Int) - 52 + 1074).toNat = num.log2 + 1022 := by omega
  rw [nearestRank, if_neg h]
  simp only [he, hbase]
  rw [placeInBinade]
  by_cases hlog : 52 ≤ num.log2
  · have hexp : ((num.log2 : Int) - 52).toNat = num.log2 - 52 := by omega
    rw [if_pos (by omega), if_pos hlog, hexp, Nat.one_mul]
  · have hexp : (-((num.log2 : Int) - 52)).toNat = 52 - num.log2 := by omega
    have hone := roundHalfEven_mul Nat.one_pos (num * twoPow (52 - num.log2))
    rw [Nat.mul_one] at hone
    rw [if_neg (by omega), if_neg hlog, hexp, hone]

theorem log2_mul_twoPow {n : Nat} (hn : n ≠ 0) (k : Nat) : (n * twoPow k).log2 = n.log2 + k := by
  refine (Nat.log2_eq_iff (Nat.mul_ne_zero hn (twoPow_pos k).ne')).2 ⟨?_, ?_⟩
  · calc 2 ^ (n.log2 + k) = 2 ^ n.log2 * twoPow k := Nat.pow_add 2 n.log2 k
      _ ≤ n * twoPow k := Nat.mul_le_mul_right _ (Nat.log2_self_le hn)
  · calc n * twoPow k < 2 ^ (n.log2 + 1) * twoPow k :=
          Nat.mul_lt_mul_of_pos_right Nat.lt_log2_self (twoPow_pos k)
      _ = 2 ^ (n.log2 + k + 1) := by rw [twoPow_eq, ← Nat.pow_add, Nat.add_right_comm]

section Binade

variable {num k m : Nat}

theorem log2_binadeSize_add (hm : m < binadeSize) : (binadeSize + m).log2 = 52 := by
  have hsize : binadeSize = 2 ^ 52 := rfl
  exact (Nat.log2_eq_iff (by omega)).2 ⟨by omega, by omega⟩

/-- The binade of a whole number that is a double is the one that the double is in. -/
theorem log2_of_units (hm : m < binadeSize) (h : (binadeSize + m) * twoPow k = num * unitsOfOne) :
    num.log2 + 1074 = 52 + k := by
  have hsize : binadeSize + m ≠ 0 := by
    have : binadeSize = 2 ^ 52 := rfl
    omega
  have hnum : num ≠ 0 := by
    rintro rfl
    rw [Nat.zero_mul] at h
    exact Nat.mul_ne_zero hsize (twoPow_pos k).ne' h
  calc num.log2 + 1074 = (num * unitsOfOne).log2 := (log2_mul_twoPow hnum 1074).symm
    _ = ((binadeSize + m) * twoPow k).log2 := by rw [h]
    _ = 52 + k := by rw [log2_mul_twoPow hsize, log2_binadeSize_add hm]

/-- A whole number that is a double is at the place of this double. -/
theorem placeInBinade_of_units (hm : m < binadeSize)
    (h : (binadeSize + m) * twoPow k = num * unitsOfOne) : placeInBinade num = binadeSize + m := by
  have hlog := log2_of_units hm h
  rw [unitsOfOne] at h
  rw [placeInBinade]
  split
  · rename_i hle
    have hk : k = num.log2 - 52 + 1074 := by omega
    rw [hk, twoPow_add, ← Nat.mul_assoc] at h
    have hnum := Nat.eq_of_mul_eq_mul_right (twoPow_pos 1074) h
    calc roundHalfEven num (twoPow (num.log2 - 52))
      _ = roundHalfEven ((binadeSize + m) * twoPow (num.log2 - 52)) (twoPow (num.log2 - 52)) := by
          rw [hnum]
      _ = binadeSize + m := roundHalfEven_mul (twoPow_pos _) _
  · rename_i hlt
    have hk : 1074 = 52 - num.log2 + k := by omega
    rw [hk, twoPow_add, ← Nat.mul_assoc] at h
    exact (Nat.eq_of_mul_eq_mul_right (twoPow_pos k) h).symm

end Binade

/-- A rank that is not that of a subnormal is a place in a binade. -/
theorem exists_binade {rank : Nat} (h : binadeSize ≤ rank) :
    ∃ k m, m < binadeSize ∧ rank = (k + 1) * binadeSize + m := by
  refine ⟨rank / binadeSize - 1, rank % binadeSize, Nat.mod_lt _ (by decide), ?_⟩
  have hdiv : 0 < rank / binadeSize := Nat.div_pos h (by decide)
  rw [Nat.sub_add_cancel hdiv, Nat.mul_comm, Nat.div_add_mod]

/-- The rank of a magnitude that is a whole number is the rank that the number is rounded to. -/
theorem nearestRank_of_units {num rank : Nat} (hrank : rank ≤ infinityRank)
    (h : rankUnits rank = num * unitsOfOne) : nearestRank num 1 = rank := by
  by_cases hnum : num = 0
  · rw [hnum, Nat.zero_mul, ← rankUnits_zero] at h
    rw [rankUnits_strictMono.injective h, hnum, nearestRank, if_pos rfl]
  have hbinade : binadeSize ≤ rank := by
    by_contra hlt
    rw [rankUnits_of_lt (Nat.lt_of_not_le hlt)] at h
    have hle : unitsOfOne ≤ num * unitsOfOne := Nat.le_mul_of_pos_left _ (Nat.pos_of_ne_zero hnum)
    have hone : twoPow 52 ≤ unitsOfOne := twoPow_le_twoPow (by decide)
    have hsize : binadeSize = twoPow 52 := rfl
    omega
  obtain ⟨k, m, hm, rfl⟩ := exists_binade hbinade
  rw [rankUnits_binade k hm] at h
  have hbase : num.log2 + 1022 = k := by
    have hlog := log2_of_units hm h
    omega
  rw [Nat.add_mul, Nat.one_mul, Nat.add_assoc] at hrank ⊢
  rw [nearestRank_one hnum, hbase, placeInBinade_of_units hm h]
  exact Nat.min_eq_left hrank

namespace Double

theorem isInfinite_of_value {y : Double} {v : Rat} (h : y.value = .finite v) :
    y.isInfinite = false := by
  cases hy : y.isInfinite with
  | false => rfl
  | true =>
    rw [value_of_infinite hy] at h
    split at h <;> cases h

theorem signedUnits_of_value {y : Double} {n : Int} (h : y.value = .finite n) :
    y.signedUnits = n * unitsOfOne := by
  rw [value_of_finite (isInfinite_of_value h), Extended.finite.injEq, Rat.mkRat_eq_div,
    div_eq_iff (by exact_mod_cast unitsOfOne_pos.ne')] at h
  exact_mod_cast h

/-- A double other than zero has the sign of the number that it is. -/
theorem negative_iff_of_value {y : Double} {n : Int} (h : y.value = .finite n)
    (hzero : y.rank ≠ 0) :
    y.negative = true ↔ n < 0 := by
  have hone := unitsOfOne_pos
  have hpos : 0 < rankUnits y.rank := by
    rw [← rankUnits_zero]
    exact rankUnits_strictMono (Nat.pos_of_ne_zero hzero)
  have hunits := signedUnits_of_value h
  rw [signedUnits, units] at hunits
  cases hneg : y.negative with
  | true =>
    rw [hneg, if_pos rfl] at hunits
    simp only [true_iff]
    by_contra hn
    have : 0 ≤ n * (unitsOfOne : Int) := Int.mul_nonneg (by omega) (by omega)
    omega
  | false =>
    rw [hneg, if_neg Bool.false_ne_true] at hunits
    simp only [Bool.false_eq_true, false_iff]
    intro hn
    have : n * (unitsOfOne : Int) ≤ 0 := Int.mul_nonpos_of_nonpos_of_nonneg (by omega) (by omega)
    omega

/-- **A whole number that is a double is read as this double.** -/
theorem ofInt?_of_value {y : Double} {n : Int} (h : y.value = .finite n) :
    ∃ x, ofInt? n = some x ∧ x.key = y.key := by
  have hmagnitude : rankUnits y.rank = n.natAbs * unitsOfOne := by
    have habs := congrArg Int.natAbs (signedUnits_of_value h)
    rw [Int.natAbs_mul, Int.natAbs_natCast] at habs
    rw [← habs, signedUnits, units]
    split <;> simp
  have hrank := nearestRank_of_units y.rank_le hmagnitude
  have hinfinite : (nearest (n < 0) n.natAbs 1).isInfinite = false := by
    show (nearestRank n.natAbs 1 == infinityRank) = false
    rw [hrank]
    exact isInfinite_of_value h
  refine ⟨nearest (n < 0) n.natAbs 1, ?_, ?_⟩
  · rw [ofInt?]
    simp [hinfinite]
  · have hkey : (nearest (n < 0) n.natAbs 1).key = if n < 0 then -(y.rank : Int) else y.rank := by
      rw [← hrank]
      simp [key, nearest]
    rw [hkey, key]
    by_cases hzero : y.rank = 0
    · simp [hzero]
    · simp only [negative_iff_of_value h hzero]

end Double

end RuleCoverage
