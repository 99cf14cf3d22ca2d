import RuleCoverage.Feature.Cell

/-!
# Columns

A `Column` holds what features have for one attribute.  It is compared with a literal cell by cell.
A list is compared item by item, so it must have one item for each of the cells:

* equality looks at all cells, order only at those that are not missing;
* a column of texts or labels asks of a dictionary, too, that it has one entry for each of them, and
  a column of texts then looks for items by their place, which a dictionary does not have.

`Column.cutTo` gives a column as many cells as a table has rows; where missing cells are added,
whole numbers turn into doubles and booleans into values of any type, because their own types have
no place for a missing one.
-/

set_option autoImplicit false

namespace RuleCoverage

/-- One attribute of all features. -/
structure Column where
  type : ColumnType
  values : List (Option Literal)

/-- The type of a column to which missing cells are added. -/
def ColumnType.withMissing : ColumnType → ColumnType
  | .int => .double
  | .bool => .mixed
  | type => type

/-- The column of a single cell. -/
def Cell.toColumn (cell : Cell) : Column := ⟨cell.column, [cell.value?]⟩

namespace Column

/-- A column in which nothing is there. -/
def missing (rows : Nat) : Column := ⟨.mixed, List.replicate rows none⟩

def cells (c : Column) : List Cell := c.values.map (Cell.mk c.type)

/-- The values that are there. -/
def present (c : Column) : List Literal := c.values.filterMap id

/-- The column with as many cells as a table has rows. -/
def cutTo (rows : Nat) (c : Column) : Column :=
  if rows ≤ c.values.length then { c with values := c.values.take rows }
  else
    let widen (v : Literal) := match c.type with
      | .int => v.onScalar Scalar.widened
      | _ => v
    ⟨c.type.withMissing,
      c.values.map (·.map widen) ++ List.replicate (rows - c.values.length) none⟩

/-- The column as it is compared with the items of a list: labels are values like any others. -/
def unlabelled (c : Column) : Column :=
  match c.type with
  | .labels _ _ => ⟨.mixed, c.values⟩
  | _ => c

/-- Whether a column of numbers or booleans meets items of no common type.  Then its cells are
values like any others, which null cannot be ordered with. -/
def meetsAnything (c : Column) (items : List Literal) : Bool :=
  CommonType.of items == .mixed && match c.type with
    | .int | .double | .bool => true
    | _ => false

/-- The column as it is compared with items one by one. -/
def facing (c : Column) (items : List Literal) : Column :=
  if c.meetsAnything items then ⟨.mixed, c.values⟩ else c

/-- The items of a list that has one for each of a number of cells. -/
def itemsFor (count : Nat) (items : List Literal) : Except Error (List Literal) :=
  if items.length = count then .ok (Literal.aligned items) else .error .lengthMismatch

/-- Fails if a column looks for the items of a dictionary. -/
def checkEntries (c : Column) (count entries : Nat) : Except Error Unit :=
  match c.type with
  | .text => .error (if entries = count then .itemsByPlace else .lengthMismatch)
  | .labels _ _ => if entries = count then .ok () else .error .lengthMismatch
  | _ => .ok ()

/-- Cells with the items of a list that they are compared with.  A missing cell takes no item; what
it is paired with is never looked at. -/
def dealt : List Cell → List Literal → List (Cell × Literal)
  | [], _ => []
  | cell :: cells, items =>
    if cell.isMissing then (cell, .null) :: dealt cells items
    else (cell, items.headD .null) :: dealt cells items.tail

/-- Which cells equal a literal. -/
def equals (c : Column) (x : Literal) : Except Error (List Verdict) :=
  match x with
  | .list items => do
    let stored ← itemsFor c.values.length items
    ((c.facing items).unlabelled.cells.zip stored).mapM fun (cell, y) ↦ cell.equals y
  | .dict entries => do
    c.checkEntries c.values.length entries.length
    c.cells.mapM fun cell ↦ cell.equals x
  | .scalar _ => c.cells.mapM fun cell ↦ cell.equals x

/-- Which cells stand in a given order to a literal.  If nothing is there, the literal does not
matter. -/
def orders (op : Comparison) (c : Column) (x : Literal) : Except Error (List Verdict) :=
  if c.present.isEmpty then .ok (c.values.map fun _ ↦ some false)
  else
    match x with
    | .list items => do
      let stored ← itemsFor c.present.length items
      if c.meetsAnything items && items.any Literal.isNull then throw .incomparable
      (dealt (c.facing items).cells stored).mapM fun (cell, y) ↦ cell.orders op y
    | .dict entries => do
      c.checkEntries c.present.length entries.length
      c.cells.mapM fun cell ↦ cell.orders op x
    | .scalar _ => c.cells.mapM fun cell ↦ cell.orders op x

/-- For which cells a comparison holds.  A missing cell differs from every literal; what is
undecided is neither equal nor different. -/
def compare (op : Comparison) (c : Column) (x : Literal) : Except Error (List Bool) :=
  match op with
  | .eq => do return (← c.equals x).map fun verdict ↦ verdict.getD false
  | .ne => do return (← c.equals x).map fun verdict ↦ (verdict.map (!·)).getD false
  | op => do (← c.orders op x).mapM Verdict.decided

/-- Which cells lie between two literals.  Both bounds are always looked at. -/
def between (c : Column) (low high : Literal) (lowIncluded highIncluded : Bool) :
    Except Error (List Bool) := do
  let above ← c.orders (if lowIncluded then .ge else .gt) low
  let below ← c.orders (if highIncluded then .le else .lt) high
  (List.zipWith Verdict.and above below).mapM Verdict.decided

/-- Which cells equal a member of a set. -/
def isIn (c : Column) (values : Distinct Scalar) : List Bool :=
  c.cells.map fun cell ↦ cell.isIn values

/-- Which cells are missing. -/
def isMissing (c : Column) : List Bool := c.values.map Option.isNone

end Column

namespace Cell

/-- Whether a comparison holds for a single cell. -/
def compare (op : Comparison) (cell : Cell) (x : Literal) : Except Error Bool := do
  return (← cell.toColumn.compare op x).all id

/-- Whether a single cell lies between two literals. -/
def between (cell : Cell) (low high : Literal) (lowIncluded highIncluded : Bool) :
    Except Error Bool := do
  return (← cell.toColumn.between low high lowIncluded highIncluded).all id

end Cell

end RuleCoverage
