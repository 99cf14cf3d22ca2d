import RuleCoverage.Literal.Number

/-!
# Intervals

An `Interval` is a connected range of the extended line between two doubles, each of which may
belong to it or not.  An interval may be empty.

Between the doubles `x` and the points next to them there are two places where a range can start or
end: just before `x` and just after it.  Counting these *cuts* along the line turns every question
about bounds into one about integers: the cut before `x` is `2 * x.key`, the cut after it
`2 * x.key + 1`.  An interval runs from `lowCut` to `highCut`; it is empty when the first is not
below the second, and an earlier interval leaves a gap before a later one exactly when its
`highCut` is below the other's `lowCut`.
-/

set_option autoImplicit false

namespace RuleCoverage

/-- A range between two bounds, each of which is included or not. -/
structure Interval where
  low : Double
  high : Double
  lowIncluded : Bool
  highIncluded : Bool
  low_le_high : low ≤ high

namespace Interval

/-- An interval between two numbers; an error when one of them is NaN or they are reversed. -/
def ofReadings (low high : Numeral.Reading) (lowIncluded highIncluded : Bool) :
    Except Error Interval :=
  match low, high with
  | .number l, .number h =>
    if ok : l ≤ h then .ok ⟨l, h, lowIncluded, highIncluded, ok⟩
    else .error (.boundsReversed l h)
  | _, _ => .error .boundIsNaN

/-- An interval between two literals. -/
def ofLiterals (low high : Literal) (lowIncluded highIncluded : Bool) : Except Error Interval := do
  let l ← low.toDouble
  let h ← high.toDouble
  ofReadings l h lowIncluded highIncluded

/-- The interval that holds one number. -/
def point (x : Double) : Interval := ⟨x, x, true, true, Int.le_refl _⟩

/-- The empty interval that stands just before a number. -/
def emptyAt (x : Double) : Interval := ⟨x, x, true, false, Int.le_refl _⟩

/-- The whole extended line. -/
def realLine : Interval := ⟨.negInf, .posInf, true, true, by decide⟩

/-! ## Cuts -/

/-- Where the interval starts. -/
def lowCut (iv : Interval) : Int := 2 * iv.low.key + if iv.lowIncluded then 0 else 1

/-- Where the interval ends. -/
def highCut (iv : Interval) : Int := 2 * iv.high.key + if iv.highIncluded then 1 else 0

/-- Intervals are equal when they start and end at the same cuts; the sign of a zero bound makes no
difference. -/
instance : BEq Interval := ⟨fun a b ↦ a.lowCut == b.lowCut && a.highCut == b.highCut⟩

/-- The start as a bound and `0` or `1`: an included bound starts earlier. -/
def lowKey (iv : Interval) : Double × Nat := (iv.low, if iv.lowIncluded then 0 else 1)

/-- The end as a bound and `0` or `1`: an included bound ends later. -/
def highKey (iv : Interval) : Double × Nat := (iv.high, if iv.highIncluded then 1 else 0)

/-- `a` comes no later than `b`: intervals are ordered by start, then by end. -/
def precedes (a b : Interval) : Bool :=
  a.lowCut < b.lowCut || (a.lowCut == b.lowCut && a.highCut ≤ b.highCut)

/-- How two intervals are ordered. -/
def compare (a b : Interval) : Ordering :=
  if a.precedes b then (if b.precedes a then .eq else .lt) else .gt

theorem precedes_iff (a b : Interval) : a.precedes b = true ↔
    a.lowCut < b.lowCut ∨ (a.lowCut = b.lowCut ∧ a.highCut ≤ b.highCut) := by
  simp [precedes]

theorem precedes_total (a b : Interval) : (a.precedes b || b.precedes a) = true := by
  rw [Bool.or_eq_true, precedes_iff, precedes_iff]
  omega

theorem precedes_trans (a b c : Interval) (hab : a.precedes b = true)
    (hbc : b.precedes c = true) : a.precedes c = true := by
  rw [precedes_iff] at *
  omega

theorem low_le_high_of_cuts {a b : Interval} (h : a.lowCut < b.highCut) : a.low ≤ b.high := by
  simp only [lowCut, highCut] at h
  rw [Double.le_def]
  split at h <;> split at h <;> omega

theorem low_le_low_of_cuts {a b : Interval} (h : a.lowCut < b.lowCut) : a.low ≤ b.low := by
  simp only [lowCut] at h
  rw [Double.le_def]
  split at h <;> split at h <;> omega

theorem high_le_high_of_cuts {a b : Interval} (h : a.highCut < b.highCut) : a.high ≤ b.high := by
  simp only [highCut] at h
  rw [Double.le_def]
  split at h <;> split at h <;> omega

/-! ## Questions -/

def isEmpty (iv : Interval) : Bool := iv.highCut ≤ iv.lowCut

def isPoint (iv : Interval) : Bool := iv.low == iv.high && iv.lowIncluded && iv.highIncluded

/-- Whether a double lies in the interval. -/
def contains (iv : Interval) (x : Double) : Bool :=
  (iv.low < x || (iv.lowIncluded && iv.low == x)) &&
    (x < iv.high || (iv.highIncluded && x == iv.high))

/-- Whether the number that a literal counts as lies in the interval; NaN lies in none. -/
def containsLiteral (iv : Interval) (x : Literal) : Except Error Bool := do
  match ← x.toDouble with
  | .number d => return iv.contains d
  | .notANumber => return false

/-- `b` starts exactly where `a` ends, and no number is missing between them. -/
def touches (a b : Interval) : Bool := a.high == b.low && (a.highIncluded || b.lowIncluded)

/-! ## Overlap and difference -/

/-- The overlap of two intervals, unless it is empty. -/
def intersect? (a b : Interval) : Option Interval :=
  let lo := if b.lowCut ≤ a.lowCut then a else b
  let hi := if a.highCut ≤ b.highCut then a else b
  if h : lo.lowCut < hi.highCut then
    some ⟨lo.low, hi.high, lo.lowIncluded, hi.highIncluded, low_le_high_of_cuts h⟩
  else none

def intersects (a b : Interval) : Bool := (a.intersect? b).isSome

/-- The part of `a` before the start of `b`, when `a` starts first. -/
def before? (a b : Interval) : Option Interval :=
  if h : a.lowCut < b.lowCut then
    some ⟨a.low, b.low, a.lowIncluded, !b.lowIncluded, low_le_low_of_cuts h⟩
  else none

/-- The part of `a` after the end of `b`, when `a` ends last. -/
def after? (a b : Interval) : Option Interval :=
  if h : b.highCut < a.highCut then
    some ⟨b.high, a.high, !b.highIncluded, a.highIncluded, high_le_high_of_cuts h⟩
  else none

/-- The parts of `a` that `b` leaves: none, one or two intervals, none of them empty. -/
def subtract (a b : Interval) : List Interval :=
  if a.isEmpty then []
  else if a.intersects b then
    ((a.before? b).toList ++ (a.after? b).toList).filter fun piece ↦ !piece.isEmpty
  else [a]

/-- From the start of `a` to the end of `a` or `b`, whichever is later. -/
def extend (a b : Interval) : Interval :=
  if h : a.highCut < b.highCut then
    ⟨a.low, b.high, a.lowIncluded, b.highIncluded,
      Int.le_trans a.low_le_high (high_le_high_of_cuts h)⟩
  else a

/-! ## Written form -/

/-- An included bound has a square bracket, an excluded one a round bracket. -/
def text (iv : Interval) : String :=
  (if iv.lowIncluded then "[" else "(") ++ iv.low.boundText ++ ", " ++ iv.high.boundText ++
    (if iv.highIncluded then "]" else ")")

/-! ## Facts -/

theorem lowCut_point (x : Double) : (point x).lowCut = 2 * x.key := by simp [lowCut, point]

theorem highCut_point (x : Double) : (point x).highCut = 2 * x.key + 1 := by
  simp [highCut, point]

theorem lowCut_extend (a b : Interval) : (a.extend b).lowCut = a.lowCut := by
  unfold extend
  split <;> simp [lowCut]

theorem highCut_extend (a b : Interval) : (a.extend b).highCut = max a.highCut b.highCut := by
  unfold extend
  split
  · rename_i h
    rw [Int.max_eq_right (Int.le_of_lt h)]
    simp [highCut]
  · rename_i h
    rw [Int.max_eq_left (Int.not_lt.1 h)]

end Interval

end RuleCoverage
