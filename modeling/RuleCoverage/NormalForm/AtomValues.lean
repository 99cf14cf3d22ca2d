import RuleCoverage.NormalForm.Interpretation
import RuleCoverage.Literal.Number

/-!
# The values that make an atom true

An atom on an interpreted attribute holds exactly when the value of the attribute lies in a certain
value set.  Atoms whose literals do not fit the kind of the attribute have no such set; they are
*opaque* and count as independent propositions.

On a numeric attribute a literal is read as the double nearest to it.  On any other attribute only
equality is interpreted.
-/

set_option autoImplicit false

namespace RuleCoverage

/-- The double that a number is read as; none for NaN and for a literal that is not numeric. -/
def Literal.numeric? (v : Literal) : Except Error (Option Double) :=
  if v.kind? == some .numeric then do
    match ← v.toDouble with
    | .number x => return some x
    | .notANumber => return none
  else .ok none

/-- The doubles that a list of numbers is read as; none as soon as one of them is not a number. -/
def numerics? : List Scalar → Except Error (Option (List Double))
  | [] => .ok (some [])
  | v :: vs => do
    match ← (Literal.scalar v).numeric? with
    | none => return none
    | some x => return (← numerics? vs).map (x :: ·)

/-- The numbers that a comparison with a number accepts. -/
def Comparison.numericValues (x : Double) : Comparison → NumericValues
  | .eq => .points [x]
  | .ne => (NumericValues.points [x]).complement
  | .lt => .ofInterval ⟨.negInf, x, true, false, x.key_bounds.1⟩
  | .le => .ofInterval ⟨.negInf, x, true, true, x.key_bounds.1⟩
  | .gt => .ofInterval ⟨x, .posInf, false, true, x.key_bounds.2⟩
  | .ge => .ofInterval ⟨x, .posInf, true, true, x.key_bounds.2⟩

/-- The numbers that make an atom true. -/
def Predicate.numericValues? : Predicate → Except Error (Option NumericValues)
  | .compare _ op v => do
    return (← v.numeric?).map op.numericValues
  | .isIn _ vs => do
    return (← numerics? vs.toList).map .points
  | .between _ l h li hi => do
    let some low ← l.numeric? | return none
    let some high ← h.numeric? | return none
    if ok : low ≤ high then return some (.ofInterval ⟨low, high, li, hi, ok⟩)
    else return some .nothing
  | _ => .ok none

/-- Whether a literal fits a kind that is not numeric.  Categories are texts or numbers. -/
def Kind.fits (k : Kind) (v : Scalar) : Bool :=
  match k with
  | .categorical => v.kind?.isSome && v.kind? != some .boolean
  | k => v.kind? == some k

/-- The discrete values that make an atom true. -/
def Predicate.discreteValues? (k : Kind) : Predicate → Option DiscreteValues
  | .compare _ op (.scalar v) =>
    if k.fits v then
      match op with
      | .eq => some (.only (.singleton v.plain))
      | .ne => some (DiscreteValues.only (.singleton v.plain)).complement
      | _ => none
    else none
  | .isIn _ vs =>
    if vs.toList.all k.fits then some (.only (.ofList (vs.toList.map Scalar.plain))) else none
  | _ => none

/-- The values that make an atom true, unless it is opaque. -/
def Interpretation.values? (ctx : Interpretation) (atom : Predicate) :
    Except Error (Option ValueSet) := do
  let some attr := atom.attr?.bind Literal.text? | return none
  let some k := ctx.kind? attr | return none
  match atom, k with
  | .isNull _, .numeric => return some (.numeric .onlyNull)
  | .isNull _, _ => return some (.discrete .onlyNull)
  | atom, .numeric => return (← atom.numericValues?).map .numeric
  | atom, k => return (atom.discreteValues? k).map .discrete

/-- Whether an atom is true of a feature that lacks the atom's attribute. -/
def Predicate.holdsOfNull : Predicate → Bool
  | .isNull _ => true
  | .compare _ op _ => op == .ne
  | _ => false

end RuleCoverage
