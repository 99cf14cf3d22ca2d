import RuleCoverage.Feature.Frame

/-!
# Rows

A `Row` is a single feature: its cells by attribute, and for each row test whether the feature
passes it.  An attribute that the row does not mention is missing.
-/

set_option autoImplicit false

namespace RuleCoverage

/-- One feature. -/
structure Row where
  cells : List (Scalar × Cell)
  /-- Whether the feature passes the test by a function of the given identity. -/
  passes : String → Bool
  /-- The common type of the names of the cells. -/
  nameType : CommonType := .text

/-- The cell of an attribute.  A list or a dictionary cannot be looked for. -/
def Row.cell (row : Row) (attr : Literal) : Except Error Cell :=
  match attr with
  | .scalar s =>
    match row.cells.find? fun e ↦ row.nameType.finds e.1 s with
    | some e => .ok e.2
    | none => .ok ⟨.mixed, none⟩
  | _ => .error .unhashableLabel

/-- The row of a table with the given number. -/
def Frame.row (frame : Frame) (passes : String → Nat → Bool) (i : Nat) : Row :=
  ⟨frame.columns.map fun (name, c) ↦ (name, ⟨c.type, c.values[i]?.join⟩), fun test ↦ passes test i,
    frame.nameType⟩

end RuleCoverage
