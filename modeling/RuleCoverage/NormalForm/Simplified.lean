import RuleCoverage.NormalForm.Rendering

/-!
# Simplification

`Predicate.simplify` brings a predicate into a canonical form that means the same.  One pass expands
it into terms, reduces them and writes them again; a predicate without terms becomes `never`, and
one whose negation has none becomes `always`.

A pass can uncover more to do, because without a schema the kinds of attributes are inferred anew
from the literals that are left.  Passes are repeated until a predicate comes back that was there
before.  If that closes a cycle of several predicates, the one with the least text is the answer.
-/

set_option autoImplicit false

namespace RuleCoverage

/-- How much work a simplification may do. -/
structure Effort where
  /-- The bound on the terms of the negation, which is expanded to recognise what always holds. -/
  budget : Budget := .atMost (.finite 256)
  /-- Whether to look for what always holds at all. -/
  detectsTautologies : Bool := true

namespace Predicate

/-- Whether the negation of some terms is found to be unsatisfiable. -/
def isTautology (ctx : Interpretation) (effort : Effort) (ts : List Term) : Bool :=
  effort.detectsTautologies &&
    match Term.negateAll? ctx effort.budget ts with
    | some [] => true
    | _ => false

/-- Whether recognising that a predicate always holds takes a search at all. -/
def needsSearch (p : Predicate) (schema : Option Schema) : Except Error Bool := do
  let ctx ← Interpretation.of p schema
  let ts ← p.expand ctx false
  return !ts.isEmpty && !ts.any Term.isAlways

/-- One pass of simplification. -/
def simplifyOnce (schema : Option Schema) (effort : Effort) (p : Predicate) :
    Except Error Predicate := do
  let ctx ← Interpretation.of p schema
  let ts ← p.expand ctx false
  if ts.isEmpty then return .never
  else if ts.any Term.isAlways || isTautology ctx effort ts then return .always
  else return Term.disjunctionOf ctx ts

/-- The first of the predicates with the least text. -/
def leastText (p : Predicate) : List Predicate → Predicate
  | [] => p
  | q :: rest => leastText (if q.text < p.text then q else p) rest

/-- The number of passes after which simplification stops in any case. -/
def maxPasses : Nat := 16

/-- Repeats a pass until a predicate comes back that is among those seen before; `current` is the
last of these. -/
def settle (pass : Predicate → Except Error Predicate) :
    (passes : Nat) → (seen : List Predicate) → (current : Predicate) → Except Error Predicate
  | 0, _, current => .ok current
  | n + 1, seen, current => do
    let next ← pass current
    match seen.dropWhile (· != next) with
    | p :: cycle => return leastText p cycle
    | [] => settle pass n (seen ++ [next]) next

/-- The canonical form of a predicate. -/
def simplify (p : Predicate) (schema : Option Schema) (effort : Effort) :
    Except Error Predicate :=
  settle (simplifyOnce schema effort) maxPasses [p] p

/-- Whether a predicate can hold at all. -/
def isSatisfiable (p : Predicate) (schema : Option Schema) : Except Error Bool := do
  let ctx ← Interpretation.of p schema
  let ts ← p.expand ctx false
  return !ts.isEmpty

end Predicate

end RuleCoverage
