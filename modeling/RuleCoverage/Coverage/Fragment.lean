import RuleCoverage.NormalForm.Simplified
import RuleCoverage.Selector.Basic
import RuleCoverage.Predicate.Mask

/-!
# Fragments

A `Fragment` is a rectangle of the plane *scale × feature*: a scale range times a predicate.  The
difference of two fragments is again a list of fragments: outside the scales of the second one the
first one stays whole, and on the scales that they share what is left are the features of the first
that the second does not have.
-/

set_option autoImplicit false

namespace RuleCoverage

/-- A scale range times a predicate. -/
structure Fragment where
  scale : Interval
  predicate : Predicate

/-- A way to simplify predicates. -/
abbrev Simplifier := Predicate → Except Error Predicate

namespace Fragment

/-- The part of `a` that `b` does not cover.  What is left on the shared scales is simplified, and
dropped if it can never hold. -/
def difference (simplify : Simplifier) (a b : Fragment) : Except Error (List Fragment) :=
  match a.scale.intersect? b.scale with
  | none => .ok [a]
  | some shared => do
    let outside := (a.scale.subtract b.scale).map fun piece ↦ Fragment.mk piece a.predicate
    let inside ← simplify (.and a.predicate (.not b.predicate))
    return outside ++ if inside == .never then [] else [⟨shared, inside⟩]

/-- What every one of some fragments has left after `b` is taken away. -/
def differenceAll (simplify : Simplifier) (as : List Fragment) (b : Fragment) :
    Except Error (List Fragment) :=
  List.flatten <$> as.mapM fun a ↦ a.difference simplify b

def toSelector (f : Fragment) : Selector := .clause ⟨some f.scale, f.predicate⟩

/-- Which rows of a table the fragment holds at a scale. -/
def mask (tests : RowTests) (frame : Frame) (scale : Literal) (f : Fragment) :
    Except Error (List Bool) := do
  if ← f.scale.containsLiteral scale then f.predicate.mask tests frame
  else return List.replicate frame.rows false

def text (f : Fragment) : String :=
  "Fragment[scale_range=" ++ f.scale.text ++ ", predicate=" ++ f.predicate.text ++ "]"

end Fragment

end RuleCoverage
