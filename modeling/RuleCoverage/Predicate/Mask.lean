import RuleCoverage.Predicate.Basic
import RuleCoverage.Feature.Row

/-!
# Masks

The *mask* of a predicate on a table says for each row whether the predicate holds of it.  The truth
is two-valued: a comparison with a missing cell is false, except `!=`, which is true.

A mask is computed part by part.  Both parts of a conjunction or disjunction are always computed,
the left one first, so an error in either one is the error of the whole.

* `Predicate.mask` computes the mask on a table;
* `Predicate.holds` is the truth of a predicate on a single row.
-/

set_option autoImplicit false

namespace RuleCoverage

/-- What the function of a test answers for a table: a truth value for each of some row labels, or
something else. -/
inductive TestAnswer where
  | series (rows : List (Int × Bool))
  | malformed

/-- What the functions of tests answer, by their identity. -/
abbrev RowTests := String → Frame → TestAnswer

/-- The answer of a test for the rows of a table, which are labelled from zero.  A row that the
answer does not mention fails the test; a label must not occur twice. -/
def TestAnswer.align (rows : Nat) : TestAnswer → Except Error (List Bool)
  | .malformed => .error .rowTestMalformed
  | .series answers =>
    if (answers.map (·.1)).Nodup then
      .ok ((List.range rows).map fun (i : Nat) ↦
        match answers.find? fun answer ↦ answer.1 == (i : Int) with
        | some answer => answer.2
        | none => false)
    else .error .repeatedRowLabel

namespace Predicate

/-- The mask of a predicate on a table. -/
def mask (tests : RowTests) (frame : Frame) : Predicate → Except Error (List Bool)
  | .always => .ok (List.replicate frame.rows true)
  | .never => .ok (List.replicate frame.rows false)
  | .bare => .error .meaningless
  | .and a b => do
    let left ← mask tests frame a
    let right ← mask tests frame b
    return List.zipWith (· && ·) left right
  | .or a b => do
    let left ← mask tests frame a
    let right ← mask tests frame b
    return List.zipWith (· || ·) left right
  | .not a => do
    let inner ← mask tests frame a
    return inner.map (!·)
  | .compare attr op v => do (← frame.column attr).compare op v
  | .isIn attr vs => do return (← frame.column attr).isIn vs
  | .between attr l h li hi => do (← frame.column attr).between l h li hi
  | .isNull attr => do return (← frame.column attr).isMissing
  | .test t => (tests t.function frame).align frame.rows

/-- The truth of a predicate on one feature. -/
def holds (row : Row) : Predicate → Except Error Bool
  | .always => .ok true
  | .never => .ok false
  | .bare => .error .meaningless
  | .and a b => do
    let left ← holds row a
    let right ← holds row b
    return left && right
  | .or a b => do
    let left ← holds row a
    let right ← holds row b
    return left || right
  | .not a => do
    let inner ← holds row a
    return !inner
  | .compare attr op v => do (← row.cell attr).compare op v
  | .isIn attr vs => do return (← row.cell attr).isIn vs
  | .between attr l h li hi => do (← row.cell attr).between l h li hi
  | .isNull attr => do return (← row.cell attr).isMissing
  | .test t => .ok (row.passes t.function)

end Predicate

end RuleCoverage
