import RuleCoverage.Error

/-!
# Comparison operators
-/

set_option autoImplicit false

namespace RuleCoverage

/-- The six ways to compare an attribute with a literal. -/
inductive Comparison where
  | eq
  | ne
  | lt
  | le
  | gt
  | ge
deriving DecidableEq, Repr

namespace Comparison

def symbol : Comparison → String
  | .eq => "=="
  | .ne => "!="
  | .lt => "<"
  | .le => "<="
  | .gt => ">"
  | .ge => ">="

/-- An operator by its symbol or by its name. -/
def ofName (name : String) : Except Error Comparison :=
  match name with
  | "==" | "equal" => .ok .eq
  | "!=" | "not_equal" => .ok .ne
  | "<" | "less" => .ok .lt
  | "<=" | "less_equal" => .ok .le
  | ">" | "greater" => .ok .gt
  | ">=" | "greater_equal" => .ok .ge
  | _ => .error (.unknownOperator name)

/-- What an ordering comparison says about two values in a given order. -/
def accepts : Comparison → Ordering → Bool
  | .eq, o => o == .eq
  | .ne, o => o != .eq
  | .lt, o => o == .lt
  | .le, o => o != .gt
  | .gt, o => o == .gt
  | .ge, o => o != .lt

/-- The comparison that says the same of two values in the other order. -/
def swapped : Comparison → Comparison
  | .lt => .gt
  | .le => .ge
  | .gt => .lt
  | .ge => .le
  | op => op

end Comparison

end RuleCoverage
