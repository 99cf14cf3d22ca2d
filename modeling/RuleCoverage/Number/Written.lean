import RuleCoverage.Number.Shortest

/-!
# How a double is written

`Double.text` writes the shortest digits that read back: positionally for magnitudes from `10 ^ -4`
up to below `10 ^ 16`, always with a point, and else in the form `1e+16`, `5e-324`, whose exponent
has a sign and at least two digits.  `Double.boundText` is the form used for the bounds of an
interval, where a whole number is written with all its digits and without a point.
-/

set_option autoImplicit false

namespace RuleCoverage

namespace Decimal

/-- The digits of a positive decimal, with a point behind the first `whole` of them; zeros fill
the places that have no digit. -/
def positional (digits : String) (whole : Int) : String :=
  let n : Int := digits.length
  if whole ≤ 0 then
    "0." ++ "".pushn '0' (-whole).toNat ++ digits
  else if n ≤ whole then
    digits ++ "".pushn '0' (whole - n).toNat ++ ".0"
  else
    let cs := digits.toList
    String.ofList (cs.take whole.toNat) ++ "." ++ String.ofList (cs.drop whole.toNat)

/-- One digit, the rest of the digits behind a point, and the power of ten. -/
def scientific (digits : String) (exponent : Int) : String :=
  let mantissa := match digits.toList with
    | [] => "0"
    | [c] => c.toString
    | c :: cs => c.toString ++ "." ++ String.ofList cs
  let power := toString exponent.natAbs
  let padded := if power.length < 2 then "0" ++ power else power
  mantissa ++ (if exponent < 0 then "e-" else "e+") ++ padded

end Decimal

namespace Double

def text (x : Double) : String :=
  let sign := if x.negative then "-" else ""
  if x.isInfinite then sign ++ "inf"
  else if x.rank = 0 then sign ++ "0.0"
  else
    let d := x.shortest
    let digits := toString d.digits
    let whole : Int := digits.length + d.exponent
    let exponent := whole - 1
    sign ++ (if -4 ≤ exponent ∧ exponent < 16 then Decimal.positional digits whole
      else Decimal.scientific digits exponent)

/-- As a bound of an interval: a whole number has no point, and zero no sign. -/
def boundText (x : Double) : String :=
  match x.toInt? with
  | some n => toString n
  | none => x.text

end Double

end RuleCoverage
