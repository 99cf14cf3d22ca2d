import RuleCoverage.Predicate.Mask
import RuleCoverage.Proofs.Outcomes

/-!
# Tables of one row

A mask says for each row of a table what a predicate says of it.  On the table of a single row
(`Row.toFrame`) it says what `Predicate.holds` says of the row, an error included.

## What is here

* `Column.length_compare`, `Column.length_between` — comparing a column gives one answer a cell.
* `Predicate.mask_toFrame` — the mask on a table of one row.
-/

set_option autoImplicit false

namespace RuleCoverage

theorem length_of_mapM_eq_ok {α β : Type} {f : α → Except Error β} {xs : List α} {ys : List β}
    (h : xs.mapM f = .ok ys) : ys.length = xs.length := (mapM_eq_ok.1 h).length_eq.symm

namespace Column

variable {c : Column} {x : Literal}

/-! ## One answer a cell -/

theorem length_cells (c : Column) : c.cells.length = c.values.length := List.length_map _

theorem values_unlabelled (c : Column) : c.unlabelled.values = c.values := by
  rw [unlabelled]
  split <;> rfl

theorem values_facing (c : Column) (items : List Literal) : (c.facing items).values = c.values := by
  rw [facing]
  split <;> rfl

theorem length_dealt (cells : List Cell) (items : List Literal) :
    (dealt cells items).length = cells.length := by
  induction cells generalizing items with
  | nil => rfl
  | cons cell cells ih =>
    rw [dealt]
    split <;> exact congrArg (· + 1) (ih _)

theorem length_equals {verdicts : List Verdict} (h : c.equals x = .ok verdicts) :
    verdicts.length = c.values.length := by
  cases x with
  | scalar s => rw [length_of_mapM_eq_ok h, length_cells]
  | dict entries =>
    obtain ⟨_, -, h⟩ := bind_eq_ok.1 h
    rw [length_of_mapM_eq_ok h, length_cells]
  | list items =>
    obtain ⟨stored, hstored, h⟩ := bind_eq_ok.1 h
    rw [itemsFor] at hstored
    split at hstored
    · rename_i hlength
      cases hstored
      rw [length_of_mapM_eq_ok h, List.length_zip, length_cells, values_unlabelled, values_facing,
        Literal.aligned, List.length_map, hlength, Nat.min_self]
    · cases hstored

theorem length_orders {op : Comparison} {verdicts : List Verdict}
    (h : c.orders op x = .ok verdicts) : verdicts.length = c.values.length := by
  rw [orders.eq_def] at h
  split at h
  · cases h
    exact List.length_map _
  cases x with
  | scalar s => rw [length_of_mapM_eq_ok h, length_cells]
  | dict entries =>
    obtain ⟨_, -, h⟩ := bind_eq_ok.1 h
    rw [length_of_mapM_eq_ok h, length_cells]
  | list items =>
    obtain ⟨stored, -, h⟩ := bind_eq_ok.1 h
    dsimp only at h
    split at h
    · cases h
    · rw [length_of_mapM_eq_ok h, length_dealt, length_cells, values_facing]

theorem length_compare {op : Comparison} {bs : List Bool} (h : c.compare op x = .ok bs) :
    bs.length = c.values.length := by
  cases op with
  | eq | ne =>
    obtain ⟨verdicts, hv, h⟩ := bind_eq_ok.1 h
    rw [← Except.ok.inj h, List.length_map, length_equals hv]
  | _ =>
    obtain ⟨verdicts, hv, h⟩ := bind_eq_ok.1 h
    rw [length_of_mapM_eq_ok h, length_orders hv]

theorem length_between {low high : Literal} {li hi : Bool} {bs : List Bool}
    (h : c.between low high li hi = .ok bs) : bs.length = c.values.length := by
  obtain ⟨above, ha, h⟩ := bind_eq_ok.1 h
  obtain ⟨below, hb, h⟩ := bind_eq_ok.1 h
  rw [length_of_mapM_eq_ok h, List.length_zipWith, length_orders ha, length_orders hb, Nat.min_self]

end Column

/-! ## Tables of one row -/

/-- The table of a single row. -/
def Row.toFrame (row : Row) : Frame :=
  ⟨1, row.nameType, row.cells.map fun (name, cell) ↦ (name, cell.toColumn)⟩

/-- What the row tests answer for the table of a single row. -/
def Row.tests (row : Row) : RowTests := fun test _ ↦ .series [(0, row.passes test)]

/-- Where a column of one cell is asked, all answers are the answer for the cell. -/
theorem eq_singleton_map_all {x : Except Error (List Bool)}
    (h : ∀ bs, x = .ok bs → bs.length = 1) : x = x >>= fun bs ↦ .ok [bs.all id] := by
  cases x with
  | error e => rfl
  | ok bs =>
    obtain ⟨b, rfl⟩ := List.length_eq_one_iff.1 (h bs rfl)
    simp [bind, Except.bind]

theorem Row.column_toFrame (row : Row) (attr : Literal) :
    row.toFrame.column attr = Cell.toColumn <$> row.cell attr := by
  cases attr with
  | list | dict => rfl
  | scalar s =>
    rw [Frame.column, Row.cell, Row.toFrame, List.find?_map]
    dsimp only [Function.comp_def]
    cases row.cells.find? fun e ↦ row.nameType.finds e.1 s <;> rfl

namespace Predicate

variable {row : Row}

/-- **The mask on the table of a single row says what the predicate says of the row.** -/
theorem mask_toFrame (row : Row) (p : Predicate) :
    p.mask row.tests row.toFrame = (fun b ↦ [b]) <$> p.holds row := by
  induction p with
  | always | never | bare => rfl
  | and a b iha ihb | or a b iha ihb =>
    rw [mask, holds, iha, ihb]
    cases a.holds row with
    | error e => rfl
    | ok r => cases b.holds row <;> rfl
  | not a ih =>
    rw [mask, holds, ih]
    cases a.holds row <;> rfl
  | compare attr op v =>
    rw [mask, holds, Row.column_toFrame]
    cases row.cell attr with
    | error e => rfl
    | ok cell =>
      have hone : ∀ bs, cell.toColumn.compare op v = .ok bs → bs.length = 1 :=
        fun _ ↦ Column.length_compare
      refine (eq_singleton_map_all hone).trans ?_
      show _ = _ <$> cell.compare op v
      rw [Cell.compare]
      cases cell.toColumn.compare op v <;> rfl
  | between attr l h li hi =>
    rw [mask, holds, Row.column_toFrame]
    cases row.cell attr with
    | error e => rfl
    | ok cell =>
      have hone : ∀ bs, cell.toColumn.between l h li hi = .ok bs → bs.length = 1 :=
        fun _ ↦ Column.length_between
      refine (eq_singleton_map_all hone).trans ?_
      show _ = _ <$> cell.between l h li hi
      rw [Cell.between]
      cases cell.toColumn.between l h li hi <;> rfl
  | isIn attr vs | isNull attr =>
    rw [mask, holds, Row.column_toFrame]
    cases row.cell attr <;> rfl
  | test t => rfl

end Predicate

end RuleCoverage
