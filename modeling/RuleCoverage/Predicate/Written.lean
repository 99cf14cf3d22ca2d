import RuleCoverage.Predicate.Basic
import RuleCoverage.Literal.Members

/-!
# How predicates are written

Comparisons stand in round brackets, `(kind == 'road')`, and so do the parts that and, or and not
join.  The members of a set are written in the order of their texts.
-/

set_option autoImplicit false

namespace RuleCoverage

/-- The written form of a predicate. -/
def Predicate.text : Predicate → String
  | .always => "INCLUDE"
  | .never => "EXCLUDE"
  | .bare => "Predicate"
  | .and a b => "(" ++ a.text ++ " ∧ " ++ b.text ++ ")"
  | .or a b => "(" ++ a.text ++ " ∨ " ++ b.text ++ ")"
  | .not a => "(~" ++ a.text ++ ")"
  | .compare attr op v => "(" ++ attr.display ++ " " ++ op.symbol ++ " " ++ v.repr ++ ")"
  | .isIn attr vs => "(" ++ attr.display ++ " in \x7b" ++ vs.text ++ "\x7d)"
  | .between attr l h li hi =>
    "(" ++ attr.display ++ " in " ++ (if li then "[" else "(") ++ l.repr ++ ", " ++ h.repr ++
      (if hi then "]" else ")") ++ ")"
  | .isNull attr => "(" ++ attr.display ++ " is null)"
  | .test t => t.text

end RuleCoverage
