import RuleCoverage.Values.Numeric
import RuleCoverage.Values.Discrete

/-!
# Value sets

The set of values that one attribute may take: numbers for a numeric attribute, discrete values for
any other.  Sets of the two shapes never meet, because an attribute has one kind; where an operation
is given both, it treats the second as having nothing in common with the first.
-/

set_option autoImplicit false

namespace RuleCoverage

/-- The values that an attribute may take. -/
inductive ValueSet where
  | numeric (values : NumericValues)
  | discrete (values : DiscreteValues)

namespace ValueSet

instance : BEq ValueSet := ⟨fun
  | .numeric a, .numeric b => a == b
  | .discrete a, .discrete b => a == b
  | _, _ => false⟩

def isEmpty : ValueSet → Bool
  | .numeric a => a.isEmpty
  | .discrete a => a.isEmpty

def complement : ValueSet → ValueSet
  | .numeric a => .numeric a.complement
  | .discrete a => .discrete a.complement

def inter : ValueSet → ValueSet → ValueSet
  | .numeric a, .numeric b => .numeric (a.inter b)
  | .discrete a, .discrete b => .discrete (a.inter b)
  | .numeric _, .discrete _ => .numeric .nothing
  | .discrete _, .numeric _ => .discrete (.only ∅)

def union : ValueSet → ValueSet → ValueSet
  | .numeric a, .numeric b => .numeric (a.union b)
  | .discrete a, .discrete b => .discrete (a.union b)
  | a, _ => a

def subset (a b : ValueSet) : Bool := (a.inter b.complement).isEmpty

end ValueSet

end RuleCoverage
