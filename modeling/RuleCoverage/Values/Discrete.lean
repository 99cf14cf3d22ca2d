import RuleCoverage.Literal.Members

/-!
# Sets of discrete values

What an attribute without an order may be: one of finitely many values, or any value except
finitely many, and possibly missing.  The second shape is never empty, because there is no end of
texts.

Each operation on two sets is an operation on their lists of exceptions or members; which one
depends on the shapes:

| | finite `B` | cofinite `B` |
|---|---|---|
| finite `A` | `A ∩ B`, `A ∪ B` | `A \ B`, `B \ A` |
| cofinite `A` | `B \ A`, `A \ B` | `A ∪ B`, `A ∩ B` |

The first entry stands for the intersection and the second for the union, which is cofinite as
soon as one of the sets is.
-/

set_option autoImplicit false

namespace RuleCoverage

/-- Finitely many values or all but finitely many, with or without the missing value. -/
structure DiscreteValues where
  values : Distinct Scalar
  cofinite : Bool
  null : Bool

namespace DiscreteValues

instance : BEq DiscreteValues := ⟨fun a b ↦
  a.values == b.values && a.cofinite == b.cofinite && a.null == b.null⟩

/-- Every value of a domain and the missing value; without a domain, every value there is. -/
def full : Option (Distinct Scalar) → DiscreteValues
  | none => ⟨∅, true, true⟩
  | some domain => ⟨domain, false, true⟩

/-- The values of a set, none of them missing. -/
def only (values : Distinct Scalar) : DiscreteValues := ⟨values, false, false⟩

/-- The missing value alone. -/
def onlyNull : DiscreteValues := ⟨∅, false, true⟩

def isEmpty (a : DiscreteValues) : Bool := !a.cofinite && a.values.isEmpty && !a.null

def complement (a : DiscreteValues) : DiscreteValues := ⟨a.values, !a.cofinite, !a.null⟩

def inter (a b : DiscreteValues) : DiscreteValues :=
  let null := a.null && b.null
  match a.cofinite, b.cofinite with
  | false, false => ⟨a.values.inter b.values, false, null⟩
  | false, true => ⟨a.values.diff b.values, false, null⟩
  | true, false => ⟨b.values.diff a.values, false, null⟩
  | true, true => ⟨a.values.union b.values, true, null⟩

def union (a b : DiscreteValues) : DiscreteValues :=
  let null := a.null || b.null
  match a.cofinite, b.cofinite with
  | false, false => ⟨a.values.union b.values, false, null⟩
  | false, true => ⟨b.values.diff a.values, true, null⟩
  | true, false => ⟨a.values.diff b.values, true, null⟩
  | true, true => ⟨a.values.inter b.values, true, null⟩

def subset (a b : DiscreteValues) : Bool := (a.inter b.complement).isEmpty

end DiscreteValues

/-- The values in braces; `not` stands before exceptions. -/
def DiscreteValues.text (a : DiscreteValues) : String :=
  (if a.cofinite then "not " else "") ++ "\x7b" ++ a.values.text ++ "\x7d" ++
    (if a.null then " ∪ null" else "")

end RuleCoverage
