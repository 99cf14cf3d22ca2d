import RuleCoverage.Feature.Column
import RuleCoverage.Literal.Number
import RuleCoverage.Literal.Written

/-!
# Stored values

Each type of column has its own way to store values, and a value that cannot be stored is an error:

* a column of doubles reads numbers and numerals, and stores whole numbers as the nearest doubles;
* a column of whole numbers stores what it can without losing anything;
* a column of booleans stores the truth of a value, even of a missing one;
* a column of texts stores values as they are written;
* a column of labels stores the label that a value equals, or nothing.
-/

set_option autoImplicit false

namespace RuleCoverage

namespace Literal

/-- The literal, unless it stands for a missing value. -/
def present? (v : Literal) : Option Literal := if v.isMissing then none else some v

end Literal

namespace ColumnType

/-- A cell of a column of doubles: any number, a numeral, or missing. -/
def doubleCell (v : Literal) : Except Error (Option Literal) :=
  match v with
  | .scalar .null => .ok none
  | .list _ => .error .cellValue
  | v =>
    match v.toDouble with
    | .ok (.number x) => .ok (some (.double x))
    | .ok .notANumber => .ok none
    | .error .tooLargeForDouble => .error .cellTooLarge
    | .error (.unreadableNumber _) => .error .cellValue
    | .error _ => .error .cellType

/-- The whole number that a cell of a column of whole numbers is read as, at first without regard to
what stands behind the point. -/
def intOf (v : Literal) : Except Error Int := do
  let n ← match v with
    | .scalar s => match s with
      | .bool b | .flag b => pure (Scalar.ofBool b)
      | .int n => pure n
      | .double x => match x.truncate? with
        | some n => pure n
        | none => throw .cellTooLarge
      | .nan => throw .cellValue
      | .text s => match Numeral.readInt? s with
        | some n => pure n
        | none => throw .cellValue
      | .null => throw .cellType
    | .list _ => throw .cellValue
    | .dict _ => throw .cellType
  let bound : Int := twoPow 63
  if -bound ≤ n && n < bound then return n else throw .cellTooLarge

/-- Cells of a column of whole numbers.  Nothing may get lost: a number must be whole, and if there
are texts among the values, all of them must have the text of the number they are read as. -/
def intCells (vs : List Literal) : Except Error (List (Option Literal)) := do
  let ns ← vs.mapM intOf
  let hasText := vs.any fun v ↦ v.text?.isSome
  let kept := List.zipWith (fun v n ↦
    if hasText then v.display == toString n else v == .int n) vs ns
  if kept.all id then return ns.map fun n ↦ some (.int n) else throw .cellValue

/-- A cell of a column of booleans, which is the truth of the value. -/
def boolCell (v : Literal) : Except Error (Option Literal) :=
  match v with
  | .list _ => .error .cellValue
  | v => .ok (some (.bool v.isTruthy))

/-- Cells of a column of labels: each value is the label that it equals, or else missing. -/
def labelCells (type : CommonType) (all : Distinct Scalar) (vs : List Literal) :
    Except Error (List (Option Literal)) := do
  let valueType := CommonType.of (vs.filter fun v ↦ !v.isMissing)
  vs.mapM fun v ↦ match v with
    | .scalar s =>
      let s := valueType.store s
      let label := all.toList.find? fun label ↦ type.agree valueType label s
      .ok (if v.isMissing then none else label.map .scalar)
    | _ => .error .cellType

/-- Values as a column of some type stores them. -/
def store (type : ColumnType) (vs : List Literal) : Except Error (List (Option Literal)) :=
  match type with
  | .mixed => .ok (vs.map Literal.present?)
  | .double => vs.mapM doubleCell
  | .int => intCells vs
  | .bool => vs.mapM boolCell
  | .text => .ok (vs.map fun v ↦ v.present?.map fun v ↦ .text v.display)
  | .labels labelType all => labelCells labelType all vs
  | .time => .ok (vs.map Literal.present?)

/-- The type of columns of labels out of a given list.  The labels must be there, and differ. -/
def ofLabels (labels : List Literal) : Except Error ColumnType := do
  if labels.any Literal.isMissing then throw .badCategories
  let scalars ← labels.mapM fun v ↦ match v with
    | .scalar s => pure s
    | _ => throw .cellType
  let type := CommonType.of labels
  let all := Distinct.ofList (scalars.map type.store)
  if all.size = labels.length then return .labels type all else throw .badCategories

end ColumnType

/-- A column of the given values. -/
def Column.ofLiterals (type : ColumnType) (values : List Literal) : Except Error Column := do
  return ⟨type, ← type.store values⟩

end RuleCoverage
