import RuleCoverage.Predicate.Written
import RuleCoverage.Interval.Basic

/-!
# Selectors

A rule applies to a part of the plane *scale × feature*.  A `Clause` cuts out a rectangle of it: a
range of scale denominators, or all of them, and a predicate on features.  A `Selector` is a clause
or a disjunction of selectors.

* `Selector.and` and `Selector.or` are the intersection and the union of two selectors;
* `Selector.leaves` lists the clauses of a selector from left to right.
-/

set_option autoImplicit false

namespace RuleCoverage

/-- A range of scales and a predicate. -/
structure Clause where
  /-- The scale denominators; none means that every scale will do. -/
  scale? : Option Interval := none
  predicate : Predicate := .always

namespace Clause

instance : BEq Clause := ⟨fun a b ↦ a.scale? == b.scale? && a.predicate == b.predicate⟩

/-- The scales that two clauses share.  Ranges that do not overlap leave an empty range, so that the
clause is not taken for one without a range. -/
def sharedScale : Option Interval → Option Interval → Option Interval
  | none, other => other
  | some a, none => some a
  | some a, some b => some ((a.intersect? b).getD (.emptyAt a.low))

/-- The conjunction of two predicates; one that always holds is left out. -/
def bothPredicates (p q : Predicate) : Predicate :=
  if p == .always then q else if q == .always then p else .and p q

/-- The intersection of two clauses. -/
def and (a b : Clause) : Clause :=
  ⟨sharedScale a.scale? b.scale?, bothPredicates a.predicate b.predicate⟩

/-- The scale range, if there is one, and the predicate, unless it goes without saying. -/
def text (c : Clause) : String :=
  let scale := c.scale?.toList.map fun iv ↦ "scale in " ++ iv.text
  let predicate :=
    if c.predicate != .always || c.scale?.isNone then [c.predicate.text] else []
  " ∧ ".intercalate (scale ++ predicate)

end Clause

/-- A clause, or a disjunction of selectors. -/
inductive Selector where
  | clause (c : Clause)
  | anyOf (children : List Selector)

namespace Selector

instance : Inhabited Selector := ⟨.clause {}⟩

mutual

/-- Equality of selectors: equal clauses in the same places. -/
def beq : Selector → Selector → Bool
  | .clause a, .clause b => a == b
  | .anyOf xs, .anyOf ys => beqList xs ys
  | _, _ => false

def beqList : List Selector → List Selector → Bool
  | [], [] => true
  | x :: xs, y :: ys => beq x y && beqList xs ys
  | _, _ => false

end

instance : BEq Selector := ⟨beq⟩

/-- The selector of a range of scales. -/
def scaleRange (iv : Interval) : Selector := .clause { scale? := some iv }

/-- The selector of a predicate on features. -/
def data (p : Predicate) : Selector := .clause { predicate := p }

mutual

/-- The intersection of a clause with each clause of a selector. -/
def andClause (c : Clause) : Selector → Selector
  | .clause d => .clause (c.and d)
  | .anyOf children => .anyOf (andClauseList c children)

def andClauseList (c : Clause) : List Selector → List Selector
  | [] => []
  | s :: rest => andClause c s :: andClauseList c rest

end

mutual

/-- The intersection of two selectors: each clause of the first with each clause of the second. -/
def and : Selector → Selector → Selector
  | .clause c, t => andClause c t
  | .anyOf children, t => .anyOf (andList children t)

def andList : List Selector → Selector → List Selector
  | [], _ => []
  | s :: rest, t => and s t :: andList rest t

end

/-- The union of two selectors.  A disjunction on the left takes the other one as a further
child. -/
def or : Selector → Selector → Selector
  | .clause c, t => .anyOf [.clause c, t]
  | .anyOf children, t => .anyOf (children ++ [t])

mutual

/-- The clauses of a selector from left to right. -/
def leaves : Selector → List Clause
  | .clause c => [c]
  | .anyOf children => leavesList children

def leavesList : List Selector → List Clause
  | [] => []
  | s :: rest => leaves s ++ leavesList rest

end

/-- The clauses of a disjunction as one disjunction without nesting.  A single clause has no such
form. -/
def flattened : Selector → Except Error Selector
  | .clause _ => .error .flattenedClause
  | .anyOf children => .ok (.anyOf ((leavesList children).map .clause))

mutual

/-- The written form of a selector; the children of a disjunction stand in brackets. -/
def text : Selector → String
  | .clause c => c.text
  | .anyOf children => " ∨ ".intercalate (textList children)

def textList : List Selector → List String
  | [] => []
  | s :: rest => ("(" ++ text s ++ ")") :: textList rest

end

end Selector

end RuleCoverage
