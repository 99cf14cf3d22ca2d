import RuleCoverage.Predicate.Comparison
import RuleCoverage.Literal.Equality

/-!
# The order of values

Values in a column are ordered as numbers or as texts; NaN has no place in the order, so every
comparison with it is false.  Lists are ordered by their first items that differ, and by their
lengths if there are none.  A boolean taken from a table is compared with each item of a list, which
must leave a single truth value.  Anything else has no order, which is an error.
-/

set_option autoImplicit false

namespace RuleCoverage

/-- Whether two scalars stand in a given order. -/
def Scalar.orders (op : Comparison) (a b : Scalar) : Except Error Bool :=
  match a, b with
  | .text s, .text t => .ok (op.accepts (if s < t then .lt else if t < s then .gt else .eq))
  | .flag _, .text _ | .text _, .flag _ => .error .flagWithoutOrder
  | a, b =>
    if a.kind?.any (· != .string) && b.kind?.any (· != .string) then
      match a.number?, b.number? with
      | some x, some y => .ok (op.accepts (x.compare y))
      | _, _ => .ok false
    else .error .incomparable

namespace Literal

mutual

/-- What is in a literal, however deep in lists. -/
def leaves : Literal → List Literal
  | .list xs => leavesOfList xs
  | v => [v]

def leavesOfList : List Literal → List Literal
  | [] => []
  | x :: xs => leaves x ++ leavesOfList xs

end

/-- Equality of two values of a table.  One that is not a single truth value is an error there. -/
def equalValues (v x : Literal) : Except Error Bool :=
  match v.equal? x with
  | .ok b => .ok b
  | .error _ => .error .ambiguousValue

/-- Whether a boolean taken from a table stands in a given order to what is in a list. -/
def flagOrders (op : Comparison) (b : Bool) (items : List Literal) : Except Error Bool :=
  let found := leavesOfList items
  if found.any fun v ↦ v.kind?.isNone then .error .incomparable
  else if found.any fun v ↦ v.kind? == some .string then .error .flagWithoutOrder
  else
    match found with
    | [.scalar s] => Scalar.orders op (.flag b) s
    | _ => .error .ambiguousValue

mutual

/-- Whether two literals stand in a given order. -/
def orders (op : Comparison) : Literal → Literal → Except Error Bool
  | .scalar a, .scalar b => a.orders op b
  | .list xs, .list ys => ordersList op xs ys
  | .scalar (.flag b), .list ys => flagOrders op b ys
  | .list xs, .scalar (.flag b) => flagOrders op.swapped b xs
  | _, _ => .error .incomparable

def ordersList (op : Comparison) : List Literal → List Literal → Except Error Bool
  | x :: xs, y :: ys => do if ← x.equalValues y then ordersList op xs ys else orders op x y
  | [], [] => .ok (op.accepts .eq)
  | [], _ :: _ => .ok (op.accepts .lt)
  | _ :: _, [] => .ok (op.accepts .gt)

end

end Literal

end RuleCoverage
