import RuleCoverage.Error

/-!
# Sets of literals

A set is given as a list of literals.  Each of them has to be a scalar; the first one that is not
is the error.  Where a set is written, its members stand in the order of their written forms.
-/

set_option autoImplicit false

namespace RuleCoverage

/-- The literal as a member of a set. -/
def Literal.toMember : Literal → Except Error Scalar
  | .scalar s => .ok s
  | x => .error (.unhashable x)

/-- The set of a list of literals. -/
def Distinct.ofLiterals (xs : List Literal) : Except Error (Distinct Scalar) :=
  Distinct.ofList <$> xs.mapM Literal.toMember

/-- The members of a set of scalars in the order of their written forms. -/
def Distinct.sorted (s : Distinct Scalar) : List Scalar :=
  s.toList.mergeSort fun a b ↦ !(b.repr < a.repr)

/-- The members of a set of scalars, written in order and separated by commas. -/
def Distinct.text (s : Distinct Scalar) : String :=
  ", ".intercalate (s.sorted.map Scalar.repr)

end RuleCoverage
