import RuleCoverage.Number.Double

/-!
# The shortest decimal that reads back

`Double.shortest` gives the decimal with the fewest digits among those that lie closer to the given
double than to any other, and of these the one nearest to the double.  A double of even rank also
owns the two midpoints to its neighbours, since reading sends a half to the even neighbour.

For one digit, two digits and so on the two decimals of that many digits around the number are
tried; the first length with a hit wins.  Seventeen digits always suffice.  All comparisons are
between whole numbers: both sides are counted in halves of the least subnormal, and multiplied by
`10 ^ (-p)` when the power `p` of the last digit is negative.
-/

set_option autoImplicit false

namespace RuleCoverage

/-- The decimal `digits * 10 ^ exponent`. -/
structure Decimal where
  digits : Nat
  exponent : Int
deriving Repr, DecidableEq

namespace Decimal

/-- A decimal without zeros at its end, for a positive one. -/
def stripZeros : Nat → Decimal → Decimal
  | 0, d => d
  | fuel + 1, d =>
    if d.digits ≠ 0 ∧ d.digits % 10 = 0 then stripZeros fuel ⟨d.digits / 10, d.exponent + 1⟩ else d

end Decimal

namespace Double

/-- The greatest `k` with `10 ^ k` at most the magnitude of a positive double. -/
def floorLog10 (rank : Nat) : Int :=
  let shifted := rankUnits rank * tenPow 330 / unitsOfOne
  ((Nat.toDigits 10 shifted).length : Int) - 331

/-- The decimal of the form `c * 10 ^ p` that reads back as the given finite positive rank and is
nearest to it, if one of the two around the number does. -/
def onGrid? (rank : Nat) (p : Int) : Option Decimal :=
  let unit := tenPow (-p).toNat
  let v := 2 * rankUnits rank * unit
  let low := (rankUnits (rank - 1) + rankUnits rank) * unit
  let high := (rankUnits rank + rankUnits (rank + 1)) * unit
  let step := 2 * unitsOfOne * tenPow p.toNat
  let owned (c : Nat) : Bool :=
    let s := c * step
    if rank % 2 = 0 then low ≤ s && s ≤ high else low < s && s < high
  let c := v / step
  let below := v - c * step
  let above := (c + 1) * step - v
  let preferBelow := below < above || (below == above && c % 2 == 0)
  match owned c, owned (c + 1) with
  | true, true => some ⟨if preferBelow then c else c + 1, p⟩
  | true, false => some ⟨c, p⟩
  | false, true => some ⟨c + 1, p⟩
  | false, false => none

/-- The first hit when the number of digits grows from `17 - fuel` on. -/
private def shortestFrom (rank : Nat) (p : Int) : Nat → Decimal
  | 0 => ⟨0, 0⟩
  | fuel + 1 =>
    match onGrid? rank p with
    | some d => d
    | none => shortestFrom rank (p - 1) fuel

/-- The shortest decimal that reads back as the magnitude of a finite double. -/
def shortest (x : Double) : Decimal :=
  if x.rank = 0 then ⟨0, 0⟩
  else Decimal.stripZeros 20 (shortestFrom x.rank (floorLog10 x.rank) 17)

end Double

end RuleCoverage
