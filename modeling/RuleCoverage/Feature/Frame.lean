import RuleCoverage.Feature.Stored
import RuleCoverage.Dictionary

/-!
# Feature tables

A `Frame` is a table of features: one row per feature, one column per attribute.  An attribute
without a column is missing everywhere.

The names of the columns stand side by side, so they are stored under a common type, and that type
decides which attributes are found: among numbers there is no column of the name `True`, even if
there is one of the name `1`.
-/

set_option autoImplicit false

namespace RuleCoverage

/-- A table of features. -/
structure Frame where
  rows : Nat
  /-- The common type of the names of the columns. -/
  nameType : CommonType
  columns : List (Scalar × Column)

namespace Frame

/-- The table of some columns with their names.  Of columns of equal names the first one gives the
place and the name, and the last one the cells. -/
def ofColumns (rows : Nat) (columns : List (Scalar × Column)) : Frame :=
  let entries := Dictionary.ofList columns
  let nameType := CommonType.of (entries.map fun e ↦ .scalar e.1)
  ⟨rows, nameType, entries.map fun (name, c) ↦ (nameType.store name, c.cutTo rows)⟩

/-- The column of an attribute.  A list or a dictionary cannot be looked for. -/
def column (frame : Frame) (attr : Literal) : Except Error Column :=
  match attr with
  | .scalar s =>
    match frame.columns.find? fun e ↦ frame.nameType.finds e.1 s with
    | some e => .ok e.2
    | none => .ok (.missing frame.rows)
  | _ => .error .unhashableLabel

end Frame

end RuleCoverage
