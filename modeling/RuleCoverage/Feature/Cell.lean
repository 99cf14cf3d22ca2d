import RuleCoverage.Feature.Order
import RuleCoverage.Literal.CommonType
import RuleCoverage.Literal.Members

/-!
# Cells of a feature table

A feature has for each attribute a `Cell`: a value, or nothing, in a column of some type.  Values
are compared with literals as numbers or as texts:

* equality holds between equal numbers of any type and between equal texts; NaN equals nothing;
* the order is that of numbers or that of texts (`RuleCoverage.Feature.Order`);
* a missing literal (null or NaN) neither equals nor orders anything, except that comparing a column
  of texts with it is undecided;
* a category label can only be tested for equality.

In a column of doubles, and where a double meets a column of whole numbers, whole numbers are first
rounded to doubles; everywhere else numbers are compared exactly.

A missing cell is never compared.
-/

set_option autoImplicit false

namespace RuleCoverage

/-- The types of columns. -/
inductive ColumnType where
  /-- Values of any type. -/
  | mixed
  | double
  | int
  | bool
  | text
  /-- Labels out of a fixed list, which are stored under a common type. -/
  | labels (type : CommonType) (all : Distinct Scalar)
  /-- Points in time, known by their texts.  An attribute of this type has no kind. -/
  | time

/-- What a feature has for an attribute: a value, or nothing, as a column of some type stores it. -/
structure Cell where
  column : ColumnType
  value? : Option Literal

/-- The outcome of a comparison, which may be undecided. -/
abbrev Verdict := Option Bool

namespace Verdict

/-- Both of two outcomes; one that is false decides. -/
def and : Verdict → Verdict → Verdict
  | some a, some b => some (a && b)
  | some false, none | none, some false => some false
  | _, _ => none

/-- The truth value of an outcome; an undecided one has none. -/
def decided : Verdict → Except Error Bool
  | some b => .ok b
  | none => .error .undecided

end Verdict

namespace ColumnType

/-- A value of a column and a literal as they are compared. -/
def operands (type : ColumnType) (a b : Scalar) : Scalar × Scalar :=
  match type, b with
  | .mixed, b => (a, b)
  | .int, .double x => (a.widened, .double x)
  | .double, b => (a, b.plain.widened)
  | _, b => (a, b.plain)

/-- Whether a value of a column equals a literal that is not missing. -/
def equals (type : ColumnType) (v x : Literal) : Except Error Bool :=
  match v, x with
  | .scalar a, .scalar b =>
    match type with
    | .labels labelType _ => .ok (labelType.finds a b)
    | type =>
      let (a, b) := type.operands a b
      .ok (a == b)
  | v, x => v.equalValues x

/-- What comparing a value of a column with a missing literal says. -/
def againstMissing : ColumnType → Verdict
  | .text => none
  | _ => some false

/-- Whether a value of a column stands in a given order to a literal. -/
def orders (type : ColumnType) (op : Comparison) (v x : Literal) : Except Error Verdict :=
  match type with
  | .labels _ _ => .error .incomparable
  | type =>
    if x.isMissing then .ok type.againstMissing
    else
      match v, x with
      | .scalar a, .scalar b => do
        let (a, b) := type.operands a b
        return some (← a.orders op b)
      | v, x => do return some (← v.orders op x)

/-- The members of a set as the values of a column are compared with them.  In a column of
numbers, a set of numbers is one of doubles, unless all of them are whole and fit one word, or one
of them is beyond any word. -/
def members (type : ColumnType) (values : List Scalar) : List Scalar :=
  match type with
  | .int | .double =>
    let literals := values.map Literal.scalar
    let isNumber (v : Literal) := v.isNumberOrMissing && !v.isNull
    let whole := literals.filterMap Literal.int?
    let shareWord := whole.length = values.length &&
      (fitOneWord whole || whole.any fun n ↦ !fitOneWord [n])
    if literals.all isNumber && !shareWord then values.map Scalar.widened else values
  | _ => values

/-- Whether a value of a column is a member of a set. -/
def contains (type : ColumnType) (v : Literal) (values : List Scalar) : Bool :=
  match v with
  | .scalar a =>
    match type with
    | .labels labelType _ => labelType.agreesWithSome a values
    | type => (type.members values).any (a == ·)
  | _ => false

end ColumnType

namespace Cell

def isMissing (cell : Cell) : Bool := cell.value?.isNone

/-- Whether the cell equals a literal. -/
def equals (cell : Cell) (x : Literal) : Except Error Verdict :=
  match cell.value? with
  | none => .ok (some false)
  | some v =>
    if x.isMissing then .ok cell.column.againstMissing
    else do return some (← cell.column.equals v x)

/-- Whether the cell stands in a given order to a literal. -/
def orders (op : Comparison) (cell : Cell) (x : Literal) : Except Error Verdict :=
  match cell.value? with
  | none => .ok (some false)
  | some v => cell.column.orders op v x

/-- Whether the cell equals a member of a set. -/
def isIn (cell : Cell) (values : Distinct Scalar) : Bool :=
  match cell.value? with
  | none => false
  | some v => cell.column.contains v values.toList

end Cell

end RuleCoverage
