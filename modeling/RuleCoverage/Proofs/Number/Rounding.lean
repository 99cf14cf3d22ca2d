import RuleCoverage.Proofs.Number.Nearest

/-!
# Rounding keeps the order

Rounding whole numbers to doubles never turns their order around: of two numbers the smaller one is
rounded to the smaller double, or both are rounded to the same one (`Double.key_le_key_of_ofInt?`).
Within a binade the spacing is the same for both.  From one binade to the next it is enough that a
number stays in its own binade or becomes the first double of the next one.

A number between two doubles is therefore on the same side of any third double before and after
(`Double.compare_of_ofInt?`); it can only be rounded onto it.
-/

set_option autoImplicit false

namespace RuleCoverage

/-! ## Magnitudes -/

theorem div_le_roundHalfEven (num den : Nat) : num / den ≤ roundHalfEven num den := by
  rw [roundHalfEven]
  split
  · omega
  · split <;> omega

theorem roundHalfEven_le (num den : Nat) : roundHalfEven num den ≤ num / den + 1 := by
  rw [roundHalfEven]
  split
  · omega
  · split <;> omega

theorem roundHalfEven_mono {m n : Nat} (den : Nat) (h : m ≤ n) :
    roundHalfEven m den ≤ roundHalfEven n den := by
  rcases Nat.lt_or_eq_of_le (Nat.div_le_div_right (c := den) h) with hlt | heq
  · have hm := roundHalfEven_le m den
    have hn := div_le_roundHalfEven n den
    omega
  · -- one quotient, so the rests are in the order of the numbers
    have hrest : m % den ≤ n % den := by
      have hm := Nat.div_add_mod m den
      have hn := Nat.div_add_mod n den
      rw [heq] at hm
      omega
    rw [roundHalfEven, roundHalfEven, heq]
    by_cases hbelow : 2 * (m % den) < den
    · rw [if_pos hbelow]
      split
      · exact Nat.le_refl _
      · split <;> omega
    · rw [if_neg hbelow, if_neg (by omega : ¬ 2 * (n % den) < den)]
      split
      · rw [if_pos (by omega)]
      · split <;> omega

/-- A whole number is rounded to a double of its own binade or to the first one of the next. -/
theorem placeInBinade_bounds {num : Nat} (h : num ≠ 0) :
    binadeSize ≤ placeInBinade num ∧ placeInBinade num ≤ 2 * binadeSize := by
  have hlow : twoPow num.log2 ≤ num := Nat.log2_self_le h
  have hhigh : num < twoPow (num.log2 + 1) := Nat.lt_log2_self
  have hsize : binadeSize = twoPow 52 := rfl
  rw [placeInBinade]
  split
  · rename_i hlog
    have hpos := twoPow_pos (num.log2 - 52)
    have hsplit : twoPow num.log2 = binadeSize * twoPow (num.log2 - 52) := by
      rw [hsize, ← twoPow_add, Nat.add_sub_cancel' hlog]
    constructor
    · refine Nat.le_trans ?_ (div_le_roundHalfEven _ _)
      rw [Nat.le_div_iff_mul_le hpos, ← hsplit]
      exact hlow
    · have hdiv : num / twoPow (num.log2 - 52) < 2 * binadeSize := by
        rw [Nat.div_lt_iff_lt_mul hpos, Nat.mul_assoc, ← hsplit, ← twoPow_succ]
        exact hhigh
      exact Nat.le_trans (roundHalfEven_le _ _) hdiv
  · rename_i hlog
    have hsplit : binadeSize = twoPow num.log2 * twoPow (52 - num.log2) := by
      rw [hsize, ← twoPow_add, Nat.add_sub_cancel' (by omega)]
    constructor
    · rw [hsplit]
      exact Nat.mul_le_mul_right _ hlow
    · rw [hsplit, ← Nat.mul_assoc, ← twoPow_succ]
      exact Nat.mul_le_mul_right _ hhigh.le

theorem nearestRank_mono {m n : Nat} (h : m ≤ n) : nearestRank m 1 ≤ nearestRank n 1 := by
  by_cases hm : m = 0
  · rw [hm, nearestRank, if_pos rfl]
    exact Nat.zero_le _
  have hn : n ≠ 0 := by omega
  rw [nearestRank_one hm, nearestRank_one hn]
  refine min_le_min ?_ (Nat.le_refl _)
  have hbm := placeInBinade_bounds hm
  have hbn := placeInBinade_bounds hn
  have hlog : m.log2 ≤ n.log2 := by
    rw [Nat.le_log2 hn]
    exact Nat.le_trans (Nat.log2_self_le hm) h
  rcases Nat.lt_or_eq_of_le hlog with hlt | heq
  · calc (m.log2 + 1022) * binadeSize + placeInBinade m
        ≤ (m.log2 + 1022) * binadeSize + 2 * binadeSize := Nat.add_le_add_left hbm.2 _
      _ = (m.log2 + 1 + 1022) * binadeSize + binadeSize := by ring
      _ ≤ (n.log2 + 1022) * binadeSize + placeInBinade n :=
        Nat.add_le_add (Nat.mul_le_mul_right _ (Nat.add_le_add_right hlt _)) hbn.1
  · -- one binade, so one spacing
    have hplace : placeInBinade m ≤ placeInBinade n := by
      rw [placeInBinade, placeInBinade, heq]
      split
      · exact roundHalfEven_mono _ h
      · exact Nat.mul_le_mul_right _ h
    rw [heq]
    omega

/-! ## Whole numbers -/

namespace Double

variable {m n : Int} {x y : Double}

theorem key_of_ofInt? (h : ofInt? n = some x) :
    x.key = if n < 0 then -(nearestRank n.natAbs 1 : Int) else nearestRank n.natAbs 1 := by
  rw [ofInt?] at h
  split at h
  · cases h
  · cases h
    simp [key, nearest]

/-- **Rounding whole numbers to doubles keeps their order.** -/
theorem key_le_key_of_ofInt? (hx : ofInt? m = some x) (hy : ofInt? n = some y) (h : m ≤ n) :
    x.key ≤ y.key := by
  rw [key_of_ofInt? hx, key_of_ofInt? hy]
  split
  · split
    · have hmono := nearestRank_mono (m := n.natAbs) (n := m.natAbs) (by omega)
      omega
    · omega
  · rw [if_neg (by omega)]
    have hmono := nearestRank_mono (m := m.natAbs) (n := n.natAbs) (by omega)
    omega

/-- Of a double that is a whole number, a whole number that is not rounded onto it is on the same
side before and after rounding. -/
theorem compare_of_ofInt? (hx : ofInt? m = some x) (hy : y.value = .finite n)
    (hne : x.key = y.key → m = n) :
    x.value.compare y.value = Extended.compare (.finite m) (.finite n) := by
  obtain ⟨z, hz, hzy⟩ := ofInt?_of_value hy
  have hlt : x.value < y.value ↔ x.key < y.key := value_lt_value
  have hgt : y.value < x.value ↔ y.key < x.key := value_lt_value
  have hcast : ∀ k l : Int, Extended.finite k < Extended.finite l ↔ k < l := fun k l ↦ by
    simp [Extended.lt_def, Extended.blt]
  simp only [Extended.compare, hlt, hgt, hcast]
  rcases Int.lt_trichotomy m n with hmn | rfl | hmn
  · have hle := key_le_key_of_ofInt? hx hz hmn.le
    have hne' : x.key ≠ y.key := fun hk ↦ hmn.ne (hne hk)
    rw [if_pos (by omega), if_pos hmn]
  · have hxz : x = z := Option.some.inj (hx.symm.trans hz)
    rw [hxz, if_neg (by omega), if_neg (by omega), if_neg (by omega), if_neg (by omega)]
  · have hle := key_le_key_of_ofInt? hz hx hmn.le
    have hne' : x.key ≠ y.key := fun hk ↦ hmn.ne' (hne hk)
    rw [if_neg (by omega), if_pos (by omega), if_neg (by omega), if_pos hmn]

end Double

end RuleCoverage
