import RuleCoverage.NormalForm.Expansion
import RuleCoverage.Predicate.Written

/-!
# Writing terms as predicates

A term is written as the conjunction of its constraints and its opaque literals.  A constraint is
written as the shortest comparison that says it: all but a few values as `!=` or as the negation of
a membership, single numbers as `==` or a membership, ranges by their bounds.  Wherever several
values or literals are written, they are taken in the order of their texts.
-/

set_option autoImplicit false

namespace RuleCoverage

/-- Predicates in the order of their texts. -/
def Predicate.sorted (ps : List Predicate) : List Predicate :=
  ((ps.map fun p ↦ (p.text, p)).mergeSort fun a b ↦ !(b.1 < a.1)).map (·.2)

/-- The attribute equals one of the values. -/
def Predicate.oneOf (attr : String) (values : Distinct Scalar) : Predicate :=
  match values.sorted with
  | [v] => .compare (.text attr) .eq (.scalar v)
  | vs => .isIn (.text attr) (.ofList vs)

/-- The attribute equals none of the values. -/
def Predicate.noneOf (attr : String) (values : Distinct Scalar) : Predicate :=
  match values.sorted with
  | [v] => .compare (.text attr) .ne (.scalar v)
  | vs => .not (.isIn (.text attr) (.ofList vs))

/-- The attribute lies in the interval. -/
def Interval.toPredicate (attr : String) (iv : Interval) : Predicate :=
  let fromStart := iv.low == .negInf && iv.lowIncluded
  let toEnd := iv.high == .posInf && iv.highIncluded
  let bound (op : Comparison) (x : Double) : Predicate := .compare (.text attr) op (.double x)
  if iv.isPoint then bound .eq iv.low
  else if fromStart && toEnd then .not (.isNull (.text attr))
  else if fromStart then bound (if iv.highIncluded then .le else .lt) iv.high
  else if toEnd then bound (if iv.lowIncluded then .ge else .gt) iv.low
  else .between (.text attr) (.double iv.low) (.double iv.high) iv.lowIncluded iv.highIncluded

/-- A set of numbers as scalars. -/
def Distinct.ofDoubles (xs : List Double) : Distinct Scalar := .ofList (xs.map .double)

/-- The test for null, where a value set has the missing value. -/
def Predicate.nullPart (attr : String) (null : Bool) : List Predicate :=
  if null then [.isNull (.text attr)] else []

/-- The attribute lies in a set of numbers. -/
def NumericValues.toPredicate (attr : String) (values : NumericValues) : Predicate :=
  let outside := values.complement
  let parts : List Predicate :=
    match values.intervals.points? with
    | some (x :: y :: rest) => [.isIn (.text attr) (.ofDoubles (x :: y :: rest))]
    | _ => values.intervals.intervals.map (Interval.toPredicate attr)
  match outside.null, outside.intervals.points? with
  | false, some (hole :: holes) => .noneOf attr (.ofDoubles (hole :: holes))
  | _, _ => .disjunction (Predicate.nullPart attr values.null ++ parts)

/-- The attribute lies in a set of discrete values, `full` being all that it may take.  Where the
values left out are fewer, they are written instead. -/
def DiscreteValues.toPredicate (attr : String) (values full : DiscreteValues) :
    Predicate :=
  if values.cofinite then
    .conjunction ((if values.null then [] else [.not (.isNull (.text attr))]) ++
      (if values.values.isEmpty then [] else [.noneOf attr values.values]))
  else
    let outside := values.complement.inter full
    if !outside.null && !outside.cofinite && !outside.values.isEmpty &&
        (values.null || outside.values.size < values.values.size) then
      .noneOf attr outside.values
    else
      .disjunction (Predicate.nullPart attr values.null ++
        if values.values.isEmpty then [] else [.oneOf attr values.values])

/-- The constraint that an attribute lies in a value set. -/
def ValueSet.toPredicate (ctx : Interpretation) (attr : String) : ValueSet → Predicate
  | .numeric values => values.toPredicate attr
  | .discrete values =>
    match ctx.full? attr with
    | some (.discrete full) => values.toPredicate attr full
    | _ => values.toPredicate attr (.full none)

namespace Term

/-- The opaque literals of a term in the order of their atoms' texts, a negation before the atom
itself. -/
def sortedLiterals (t : Term) : List OpaqueLiteral :=
  ((t.literals.toList.map fun l ↦ (l.atom.text, l)).mergeSort fun (x, l) (y, m) ↦
    x < y || (x == y && (!l.positive || m.positive))).map (·.2)

/-- The predicate that a term stands for. -/
def toPredicate (ctx : Interpretation) (t : Term) : Predicate :=
  .conjunction <|
    t.constraints.map (fun (attr, vs) ↦ vs.toPredicate ctx attr) ++
    t.sortedLiterals.map fun l ↦ if l.positive then l.atom else .not l.atom

/-- The predicate that a disjunction of terms stands for; the terms are written in the order of
their texts. -/
def disjunctionOf (ctx : Interpretation) (ts : List Term) : Predicate :=
  .disjunction (Predicate.sorted (ts.map (toPredicate ctx)))

end Term

end RuleCoverage
