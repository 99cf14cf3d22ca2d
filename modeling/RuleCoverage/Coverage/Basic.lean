import RuleCoverage.Coverage.Fragment
import RuleCoverage.Selector.Binding
import RuleCoverage.Config
import RuleCoverage.Rule

/-!
# Coverage

Rules are given in order of priority, and each keeps only that part of its region that no earlier
rule has claimed.  A `Coverage` is the union of the regions claimed so far, as a list of disjoint
fragments.

* `Coverage.toFragments` cuts the region of a selector into disjoint fragments;
* `Coverage.addRule` claims the region of a rule and gives the pieces of the rule that are new;
* `Coverage.compact` puts fragments in order and joins those of equal scale ranges.

A step that fails has no resulting coverage: the one before it is still there.
-/

set_option autoImplicit false

namespace RuleCoverage

/-- The scales of a clause without a scale range. -/
def fullScaleRange : Interval := ⟨.zero, .posInf, true, false, by decide⟩

/-- The region claimed so far, and what predicates are read against. -/
structure Coverage where
  schema : Option Schema := none
  config : Config := {}
  fragments : List Fragment := []

namespace Coverage

/-- The simplification that the coverage's settings ask for. -/
def simplify (c : Coverage) : Simplifier := fun p ↦ p.simplify c.schema c.config.effort

def size (c : Coverage) : Nat := c.fragments.length

def isEmpty (c : Coverage) : Bool := c.fragments.isEmpty

/-- The coverage before any rule. -/
def reset (c : Coverage) : Coverage := { c with fragments := [] }

/-! ## From selectors to fragments -/

/-- The clauses of a selector that is not a nested disjunction. -/
def clauses : Selector → Except Error (List Clause)
  | .clause c => .ok [c]
  | .anyOf children => children.mapM fun
    | .clause c => .ok c
    | .anyOf _ => .error .nestedOr

/-- Adds a rectangle to a list of fragments.  If there is a fragment of equal scale range, the
predicate becomes an alternative of that one; else the rectangle goes to the end. -/
def place (simplify : Simplifier) (scale : Interval) (p : Predicate) :
    List Fragment → Except Error (List Fragment)
  | [] => .ok [⟨scale, p⟩]
  | f :: rest =>
    if f.scale == scale then do
      return ⟨scale, ← simplify (.or f.predicate p)⟩ :: rest
    else do
      return f :: (← place simplify scale p rest)

/-- The rectangles of some clauses, those of equal scale ranges joined; a clause with an empty scale
range has none. -/
def rectangles (c : Coverage) (acc : List Fragment) : List Clause → Except Error (List Fragment)
  | [] => .ok acc
  | clause :: rest => do
    let scale := clause.scale?.getD fullScaleRange
    if scale.isEmpty then rectangles c acc rest
    else
      let p ← clause.bind c.schema c.config.isStrict
      rectangles c (← place c.simplify scale p acc) rest

/-- What is left of some fragments after each of the others is taken away in turn. -/
def remainder (simplify : Simplifier) (pieces : List Fragment) :
    List Fragment → Except Error (List Fragment)
  | [] => .ok pieces
  | other :: rest => do
    remainder simplify (← Fragment.differenceAll simplify pieces other) rest

/-- Makes fragments disjoint: each keeps what the ones before it do not cover. -/
def disjoint (simplify : Simplifier) (done : List Fragment) :
    List Fragment → Except Error (List Fragment)
  | [] => .ok done
  | f :: rest => do
    disjoint simplify (done ++ (← remainder simplify [f] done)) rest

/-- The region of a selector as disjoint fragments. -/
def toFragments (c : Coverage) (s : Selector) : Except Error (List Fragment) := do
  disjoint c.simplify [] (← rectangles c [] (← clauses s))

/-! ## Adding rules -/

/-- Joins each fragment of a sorted list to the one before it when their scale ranges are equal;
`done` are the fragments before, the last one first. -/
def joinEqual (simplify : Simplifier) (done : List Fragment) :
    List Fragment → Except Error (List Fragment)
  | [] => .ok done.reverse
  | f :: rest =>
    match done with
    | last :: before =>
      if last.scale == f.scale then do
        let p ← simplify (.or f.predicate last.predicate)
        joinEqual simplify (⟨last.scale, p⟩ :: before) rest
      else joinEqual simplify (f :: done) rest
    | [] => joinEqual simplify [f] rest

/-- Sorts fragments by scale range and joins those with equal ones. -/
def compact (c : Coverage) (fs : List Fragment) : Except Error (List Fragment) :=
  joinEqual c.simplify [] (fs.mergeSort fun f g ↦ f.scale.precedes g.scale)

variable {π : Type}

/-- Claims the region of a rule.  The result is the pieces of the rule for what nobody had claimed
before, and the coverage with them; the first rule is kept whole. -/
def addRule (c : Coverage) (r : Rule π) : Except Error (List (Rule π) × Coverage) := do
  let incoming ← c.toFragments r.selector
  if c.isEmpty then return ([r], { c with fragments := incoming })
  let remaining ← remainder c.simplify incoming c.fragments
  if remaining.isEmpty then return ([], c)
  let fragments ← c.compact (c.fragments ++ remaining)
  return (remaining.map fun f ↦ r.derive f.toSelector, { c with fragments := fragments })

/-- Which rows of a table are claimed at a scale. -/
def covers (tests : RowTests) (frame : Frame) (scale : Literal) (c : Coverage) :
    Except Error (List Bool) :=
  c.fragments.foldlM (fun covered f ↦ do
    return List.zipWith (· || ·) covered (← f.mask tests frame scale))
    (List.replicate frame.rows false)

/-- The fragments, one on a line, between a head with their number and a foot. -/
def text (c : Coverage) : String :=
  "\n".intercalate <|
    ["DomainCoverage[items=" ++ toString c.size ++ ","] ++ c.fragments.map Fragment.text ++
    ["] // DomainCoverage end"]

end Coverage

end RuleCoverage
