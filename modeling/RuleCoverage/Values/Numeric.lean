import RuleCoverage.Interval.Set

/-!
# Sets of numeric values

What a numeric attribute may be: a union of intervals, and possibly missing.  A missing value
counts as one more point beside the line.
-/

set_option autoImplicit false

namespace RuleCoverage

/-- A set of numbers, with or without the missing value. -/
structure NumericValues where
  intervals : IntervalSet
  null : Bool

namespace NumericValues

instance : BEq NumericValues := ⟨fun a b ↦ a.intervals == b.intervals && a.null == b.null⟩

/-- Every number and the missing value. -/
def full : NumericValues := ⟨.full, true⟩

def nothing : NumericValues := ⟨∅, false⟩

/-- The missing value alone. -/
def onlyNull : NumericValues := ⟨∅, true⟩

def ofInterval (iv : Interval) : NumericValues := ⟨.ofList [iv], false⟩

def points (xs : List Double) : NumericValues := ⟨.points xs, false⟩

def isEmpty (a : NumericValues) : Bool := a.intervals.isEmpty && !a.null

def complement (a : NumericValues) : NumericValues := ⟨a.intervals.complement, !a.null⟩

def inter (a b : NumericValues) : NumericValues := ⟨a.intervals.inter b.intervals, a.null && b.null⟩

def union (a b : NumericValues) : NumericValues := ⟨a.intervals.union b.intervals, a.null || b.null⟩

def subset (a b : NumericValues) : Bool := (a.inter b.complement).isEmpty

def text (a : NumericValues) : String := a.intervals.text ++ (if a.null then " ∪ null" else "")

end NumericValues

end RuleCoverage
