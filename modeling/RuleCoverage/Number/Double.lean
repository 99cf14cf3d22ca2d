import RuleCoverage.Number.Extended

/-!
# Binary doubles

A `Double` is a number of the binary64 format other than NaN.  It is stored as a sign and a
*rank*: the place of its magnitude among the nonnegative doubles, counted from zero.  Rank `0` is
zero, rank `1` the least subnormal, and the greatest rank is infinity.  The magnitudes of the format
are evenly spaced between two powers of two and the spacing doubles at each power, which is what
`Double.units` computes.

* The order is the order of the signed ranks (`Double.key`), so comparing two doubles is comparing
  two integers.
* `Double.value` is the point of the exact line that a double stands for.
* The two zeros are one number (`==` identifies them), but the sign is kept, because it shows when
  the number is written.
-/

set_option autoImplicit false

namespace RuleCoverage

/-- The rank of infinity: 2047 binades of `2 ^ 52` magnitudes each lie below it. -/
abbrev infinityRank : Nat := 0x7FF0000000000000

/-- A binary64 number other than NaN. -/
structure Double where
  negative : Bool
  rank : Nat
  rank_le : rank ≤ infinityRank := by omega
deriving Repr

/-- The number of magnitudes between a power of two and the next one: `2 ^ 52`. -/
abbrev binadeSize : Nat := 0x10000000000000

/-- A power of two. -/
def twoPow (k : Nat) : Nat := Nat.pow 2 k

/-- A power of ten. -/
def tenPow (k : Nat) : Nat := Nat.pow 10 k

/-- One as a multiple of the least subnormal. -/
def unitsOfOne : Nat := twoPow 1074

/-- The magnitude of a rank as a multiple of the least subnormal, `2 ^ (-1074)`.  The formula
continues past the finite ranks: infinity's rank gives `2 ^ 1024`, the next power of two. -/
def rankUnits (rank : Nat) : Nat :=
  if rank < binadeSize then rank
  else (binadeSize + rank % binadeSize) * twoPow (rank / binadeSize - 1)

namespace Double

instance : Inhabited Double := ⟨⟨false, 0, Nat.zero_le _⟩⟩

/-- Zero with a sign. -/
def zeroOf (negative : Bool) : Double := ⟨negative, 0, Nat.zero_le _⟩

/-- Infinity with a sign. -/
def infinityOf (negative : Bool) : Double := ⟨negative, infinityRank, Nat.le_refl _⟩

def zero : Double := zeroOf false

def posInf : Double := infinityOf false

def negInf : Double := infinityOf true

/-- The place of a double on the line: its rank, counted downwards for a negative one. -/
def key (x : Double) : Int := if x.negative then -(x.rank : Int) else x.rank

/-- Two doubles are the same number when they have the same place; so `-0.0 == 0.0`. -/
instance : BEq Double := ⟨fun x y ↦ x.key == y.key⟩

instance : LT Double := ⟨fun x y ↦ x.key < y.key⟩

instance : LE Double := ⟨fun x y ↦ x.key ≤ y.key⟩

instance (x y : Double) : Decidable (x < y) := inferInstanceAs (Decidable (x.key < y.key))

instance (x y : Double) : Decidable (x ≤ y) := inferInstanceAs (Decidable (x.key ≤ y.key))

theorem lt_def (x y : Double) : x < y ↔ x.key < y.key := Iff.rfl

theorem le_def (x y : Double) : x ≤ y ↔ x.key ≤ y.key := Iff.rfl

theorem beq_iff (x y : Double) : (x == y) = true ↔ x.key = y.key := by
  simp [BEq.beq]

@[simp] theorem key_zero : zero.key = 0 := rfl

@[simp] theorem key_posInf : posInf.key = infinityRank := rfl

@[simp] theorem key_negInf : negInf.key = -(infinityRank : Int) := rfl

/-- No double lies below `negInf` or above `posInf`. -/
theorem key_bounds (x : Double) : negInf.key ≤ x.key ∧ x.key ≤ posInf.key := by
  have := x.rank_le
  rw [key_negInf, key_posInf]
  unfold key
  split <;> omega

def isInfinite (x : Double) : Bool := x.rank == infinityRank

/-- The magnitude as a multiple of the least subnormal. -/
def units (x : Double) : Nat := rankUnits x.rank

/-- The exact number that a double stands for. -/
def value (x : Double) : Extended :=
  if x.isInfinite then
    if x.negative then .negInf else .posInf
  else
    .finite (mkRat (if x.negative then -(x.units : Int) else x.units) unitsOfOne)

/-- The part of a finite double before the point. -/
def truncate? (x : Double) : Option Int :=
  if x.isInfinite then none
  else
    let magnitude : Int := (x.units / unitsOfOne : Nat)
    some (if x.negative then -magnitude else magnitude)

/-- The whole number that a double stands for, if it is one. -/
def toInt? (x : Double) : Option Int := if x.units % unitsOfOne ≠ 0 then none else x.truncate?

end Double

end RuleCoverage
