import RuleCoverage.Schema.Basic
import RuleCoverage.Feature.Frame

/-!
# The schema of a table

A column's type decides the kind of its attribute.  A column of values of any type is boolean or
numeric when all values that it has are, and a column of texts otherwise.
-/

set_option autoImplicit false

namespace RuleCoverage

/-- Whether a column has values and all of them are of one kind. -/
def Column.isAll (c : Column) (k : Kind) : Bool :=
  !c.present.isEmpty && c.present.all fun v ↦ v.kind? == some k

/-- The name of a column as a message about the table shows it.  A name that is stored as a number
or a boolean shows its storage. -/
def CommonType.nameText (type : CommonType) (name : Scalar) : String :=
  match type, name with
  | .int, .int n =>
    (if n < twoPow 63 then "np.int64(" else "np.uint64(") ++ toString n ++ ")"
  | .double, name => "np.float64(" ++ name.repr ++ ")"
  | .bool, .bool b => (Scalar.flag b).repr
  | _, name => name.repr

/-- The kind of a column, and its categories if it is categorical.  The name of the column is given
as a message shows it. -/
def Column.kind (name : String) (c : Column) : Except Error (Kind × Option (Distinct Scalar)) :=
  match c.type with
  | .labels _ all => .ok (.categorical, some all)
  | .bool => .ok (.boolean, none)
  | .double | .int => .ok (.numeric, none)
  | .text => .ok (.string, none)
  | .mixed =>
    if c.isAll .boolean then .ok (.boolean, none)
    else if c.isAll .numeric then .ok (.numeric, none)
    else .ok (.string, none)
  | .time => .error (.unsupportedColumn name "datetime64[ns]")

/-- The schema of a table.  Columns whose names have the same text are one attribute, as the last
of them says. -/
def Schema.ofFrame (frame : Frame) (name : String) : Except Error Schema := do
  let columns ← frame.columns.mapM fun (name, c) ↦ do
    return ((Literal.scalar name).display, ← c.kind (frame.nameType.nameText name))
  let kinds := Dictionary.ofList (columns.map fun (a, k, _) ↦ (a, k))
  let categories := Dictionary.ofList (columns.filterMap fun (a, _, vs?) ↦ vs?.map fun vs ↦ (a, vs))
  match categories.find? fun (a, _) ↦ Dictionary.get? a kinds != some .categorical with
  | some (a, _) => throw (.strayCategories a)
  | none => return ⟨kinds, categories, name⟩

end RuleCoverage
