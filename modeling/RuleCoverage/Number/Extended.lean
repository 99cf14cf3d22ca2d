/-!
# Exact numbers with two infinities

The numbers of this library meet on one line: the rationals with an infinity at each end.  Whole
numbers of any size and binary doubles are compared by the point of this line that they stand for,
so no comparison ever rounds.
-/

set_option autoImplicit false

namespace RuleCoverage

/-- A point of the rational line closed by an infinity at each end. -/
inductive Extended where
  | negInf
  | finite (value : Rat)
  | posInf
deriving DecidableEq, Repr, Inhabited

namespace Extended

/-- The order of the line, as a test. -/
def blt : Extended → Extended → Bool
  | .negInf, .negInf => false
  | .negInf, _ => true
  | .finite a, .finite b => a < b
  | .finite _, .posInf => true
  | _, _ => false

instance : LT Extended := ⟨fun x y ↦ x.blt y = true⟩

instance : LE Extended := ⟨fun x y ↦ y.blt x = false⟩

instance (x y : Extended) : Decidable (x < y) := inferInstanceAs (Decidable (_ = true))

instance (x y : Extended) : Decidable (x ≤ y) := inferInstanceAs (Decidable (_ = false))

/-- How two points of the line are ordered. -/
def compare (x y : Extended) : Ordering :=
  if x < y then .lt else if y < x then .gt else .eq

theorem lt_def (x y : Extended) : x < y ↔ x.blt y = true := Iff.rfl

theorem le_def (x y : Extended) : x ≤ y ↔ y.blt x = false := Iff.rfl

theorem not_lt (x y : Extended) : ¬ x < y ↔ y ≤ x := by simp [lt_def, le_def]

theorem lt_irrefl : ∀ x : Extended, ¬ x < x
  | .negInf => fun h ↦ Bool.false_ne_true h
  | .finite _ => fun h ↦ Rat.lt_irrefl (of_decide_eq_true h)
  | .posInf => fun h ↦ Bool.false_ne_true h

end Extended

end RuleCoverage
