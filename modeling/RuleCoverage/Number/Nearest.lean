import RuleCoverage.Number.Double

/-!
# The double nearest to a ratio

`Double.nearest` gives the double closest to an exact ratio, a half going to the even neighbour.
The ratio is divided by the spacing of the doubles around it and the quotient is rounded to a whole
number; adding the rank at which that spacing begins gives the rank of the answer, also when
rounding carries into the next binade.  What lies beyond the greatest finite double becomes
infinite.
-/

set_option autoImplicit false

namespace RuleCoverage

/-- The whole number nearest to `num / den`, a half going to the even one. -/
def roundHalfEven (num den : Nat) : Nat :=
  let q := num / den
  let r := num % den
  if 2 * r < den then q else if den < 2 * r then q + 1 else q + q % 2

/-- The greatest `k` with `2 ^ k ≤ num / den`, for a positive ratio. -/
def floorLog2 (num den : Nat) : Int :=
  let k : Int := (num.log2 : Int) - den.log2
  let below := if 0 ≤ k then num < den * twoPow k.toNat else num * twoPow (-k).toNat < den
  if below then k - 1 else k

/-- The rank of the magnitude nearest to `num / den`. -/
def nearestRank (num den : Nat) : Nat :=
  if num = 0 then 0
  else
    let e := max (floorLog2 num den - 52) (-1074)
    let q := if 0 ≤ e then roundHalfEven num (den * twoPow e.toNat)
      else roundHalfEven (num * twoPow (-e).toNat) den
    min ((e + 1074).toNat * binadeSize + q) infinityRank

theorem nearestRank_le (num den : Nat) : nearestRank num den ≤ infinityRank := by
  unfold nearestRank
  split
  · omega
  · exact Nat.min_le_right _ _

namespace Double

/-- The double nearest to `num / den`, or to its negative. -/
def nearest (negative : Bool) (num den : Nat) : Double :=
  ⟨negative, nearestRank num den, nearestRank_le num den⟩

/-- The double nearest to a whole number; none when the number is beyond the finite doubles. -/
def ofInt? (n : Int) : Option Double :=
  let x := nearest (n < 0) n.natAbs 1
  if x.isInfinite then none else some x

def one : Double := nearest false 1 1

end Double

end RuleCoverage
