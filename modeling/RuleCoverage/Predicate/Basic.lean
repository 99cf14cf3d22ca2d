import RuleCoverage.Predicate.Comparison
import RuleCoverage.Literal.Members

/-!
# Predicates on features

A `Predicate` is a condition on one feature: constants, comparisons of an attribute with literals,
and tests by a function, joined by and, or and not.

Two predicates are equal (`==`) when they are built alike from equal parts.  Literals count as equal
whatever their type (`x == 1` equals `x == 1.0`), the members of a set in any order, and tests when
they have the same function and the same name.
-/

set_option autoImplicit false

namespace RuleCoverage

/-- A test of features by a function.  The function is known by an identity only; what it answers
is given when features are looked at. -/
structure RowTest where
  function : String
  /-- A function without a name of its own. -/
  anonymous : Bool
  name : String

namespace RowTest

/-- The name of a test that was given none. -/
def defaultName : String := "Where"

instance : BEq RowTest := ⟨fun a b ↦ a.function == b.function && a.name == b.name⟩

/-- A test is written by its name, if it was given one, or by the name of its function. -/
def text (t : RowTest) : String :=
  if t.name != "" && t.name != defaultName then t.name
  else defaultName ++ "(" ++ (if t.anonymous then "fn" else t.function) ++ ")"

end RowTest

/-- A condition on a feature. -/
inductive Predicate where
  | always
  | never
  /-- A condition that has no meaning of its own. -/
  | bare
  | and (a b : Predicate)
  | or (a b : Predicate)
  | not (a : Predicate)
  | compare (attr : Literal) (op : Comparison) (value : Literal)
  | isIn (attr : Literal) (values : Distinct Scalar)
  | between (attr low high : Literal) (lowIncluded highIncluded : Bool)
  | isNull (attr : Literal)
  | test (t : RowTest)

namespace Predicate

instance : Inhabited Predicate := ⟨.always⟩

/-- Equality of predicates. -/
def beq : Predicate → Predicate → Bool
  | .always, .always => true
  | .never, .never => true
  | .bare, .bare => true
  | .and a b, .and c d => beq a c && beq b d
  | .or a b, .or c d => beq a c && beq b d
  | .not a, .not b => beq a b
  | .compare a op v, .compare b op' w => a == b && op == op' && v == w
  | .isIn a vs, .isIn b ws => a == b && vs == ws
  | .between a l h li hi, .between b l' h' li' hi' =>
    a == b && l == l' && h == h' && li == li' && hi == hi'
  | .isNull a, .isNull b => a == b
  | .test t, .test u => t == u
  | _, _ => false

instance : BEq Predicate := ⟨beq⟩

/-- The attribute of a comparison, of a membership or of a test for null. -/
def attr? : Predicate → Option Literal
  | .compare a _ _ | .isIn a _ | .between a _ _ _ _ | .isNull a => some a
  | _ => none

/-- All of the conditions; none given, the condition that always holds. -/
def conjunction : List Predicate → Predicate
  | [] => .always
  | p :: ps => ps.foldl .and p

/-- Some of the conditions; none given, the condition that never holds. -/
def disjunction : List Predicate → Predicate
  | [] => .never
  | p :: ps => ps.foldl .or p

/-- The truth of a boolean attribute. -/
def ofColumn (attr : Literal) : Predicate := .compare attr .eq (.bool true)

/-- The attributes that a predicate mentions by a text, each one once. -/
def attributes : Predicate → Distinct String
  | .and a b | .or a b => (attributes a).union (attributes b)
  | .not a => attributes a
  | p => match p.attr?.bind Literal.text? with
    | some a => .singleton a
    | none => ∅

end Predicate

/-- The members of a set of texts in order. -/
def Distinct.sortedTexts (s : Distinct String) : List String :=
  s.toList.mergeSort fun a b ↦ !(b < a)

end RuleCoverage
