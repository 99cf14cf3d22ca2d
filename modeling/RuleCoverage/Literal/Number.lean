import RuleCoverage.Error
import RuleCoverage.Number.Numeral

/-!
# Reading literals as doubles

Where a double is needed any literal may be given: a boolean counts as `0` or `1`, a whole number
is rounded to the nearest double, and a text is read as a numeral.
-/

set_option autoImplicit false

namespace RuleCoverage

/-- The double nearest to a whole number. -/
def doubleOfInt (n : Int) : Except Error Double :=
  match Double.ofInt? n with
  | some x => .ok x
  | none => .error .tooLargeForDouble

/-- The double that a scalar counts as. -/
def Scalar.toDouble : Scalar → Except Error Numeral.Reading
  | .bool b | .flag b => .ok (.number (if b then .one else .zero))
  | .int n => .number <$> doubleOfInt n
  | .double x => .ok (.number x)
  | .nan => .ok .notANumber
  | .text s =>
    match Numeral.read? s with
    | some r => .ok r
    | none => .error (.unreadableNumber s)
  | .null => .error (.notANumber .null)

/-- The double that a literal counts as. -/
def Literal.toDouble : Literal → Except Error Numeral.Reading
  | .scalar s => s.toDouble
  | x => .error (.notANumber x)

end RuleCoverage
