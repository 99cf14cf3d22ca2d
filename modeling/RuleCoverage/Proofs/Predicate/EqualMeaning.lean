import Mathlib.Data.List.Find
import RuleCoverage.Proofs.Feature.EqualLiterals

/-!
# Equal predicates mean the same

Predicates that are equal (`==`) may be written with literals of different types.  On every row that
overlooks the differences between corresponding literals (`Row.Overlooks`) they have one truth
value, or none, and are therefore interchangeable (`Predicate.holds_iff_of_beq`): by induction over
what they are built of, with the comparisons of a single cell
(`RuleCoverage.Proofs.Feature.EqualLiterals`) at the bottom.  A row overlooks every difference
between a predicate and itself (`Row.overlooks_self`).

The condition is about the few things by which a table tells equal literals apart.  Each of them
does give two equal predicates with different truth values (`Row.tellsApart_equal`).
-/

set_option autoImplicit false

namespace RuleCoverage

namespace Row

variable {row : Row} {x y : Literal}

/-- The row is asked for the same cell by two equal names: no name of a cell is found by one of them
only, and they are not a boolean taken from a table and a list. -/
def OverlooksName (row : Row) (x y : Literal) : Prop :=
  match x, y with
  | .scalar s, .scalar t => ∀ e ∈ row.cells, row.nameType.Overlooks e.1 s t
  | .scalar _, .list _ | .list _, .scalar _ => False
  | _, _ => True

theorem cell_eq_of_beq (hbeq : (x == y) = true) (h : row.OverlooksName x y) :
    row.cell x = row.cell y := by
  cases x with
  | scalar s =>
    cases y with
    | scalar t =>
      rw [Literal.scalar_beq_scalar, Scalar.beq_iff_key] at hbeq
      have hfinds : ∀ e ∈ row.cells, row.nameType.finds e.1 s = row.nameType.finds e.1 t :=
        fun e he ↦ CommonType.finds_congr hbeq (h e he)
      rw [cell, cell, List.find?_congr hfinds]
    | list items => exact h.elim
    | dict entries => cases s <;> cases hbeq
  | list items =>
    cases y with
    | scalar t => exact h.elim
    | list | dict => rfl
  | dict entries =>
    cases y with
    | scalar t => cases t <;> cases hbeq
    | list | dict => rfl

/-- The row does not see the differences between two equal predicates: it overlooks those between
the names of attributes and between the literals of corresponding comparisons. -/
def Overlooks (row : Row) : Predicate → Predicate → Prop
  | .and a b, .and c d | .or a b, .or c d => row.Overlooks a c ∧ row.Overlooks b d
  | .not a, .not b => row.Overlooks a b
  | .compare a op v, .compare b _ w => row.OverlooksName a b ∧
      ∀ cell, row.cell a = .ok cell → cell.Overlooks op v w
  | .isIn a vs, .isIn b ws => row.OverlooksName a b ∧
      ∀ cell, row.cell a = .ok cell → cell.OverlooksSets vs ws
  | .between a l u li ui, .between b l' u' _ _ => row.OverlooksName a b ∧
      ∀ cell, row.cell a = .ok cell → cell.Overlooks (if li then .ge else .gt) l l' ∧
        cell.Overlooks (if ui then .le else .lt) u u'
  | .isNull a, .isNull b => row.OverlooksName a b
  | _, _ => True

/-- What is written alike differs in nothing. -/
theorem overlooks_self (row : Row) (p : Predicate) : row.Overlooks p p := by
  have hname : ∀ x, row.OverlooksName x x := by
    intro x
    cases x with
    | scalar s => exact fun e _ ↦ row.nameType.overlooks_self e.1 s
    | list | dict => trivial
  induction p with
  | always | never | bare | test => trivial
  | and a b iha ihb | or a b iha ihb => exact ⟨iha, ihb⟩
  | not a ih => exact ih
  | compare a op v => exact ⟨hname a, fun cell _ ↦ cell.overlooks_self op v⟩
  | isIn a vs =>
    exact ⟨hname a, fun cell _ s _ ↦ cell.column.overlooksSets_self s vs.toList⟩
  | between a l u =>
    exact ⟨hname a, fun cell _ ↦ ⟨cell.overlooks_self _ l, cell.overlooks_self _ u⟩⟩
  | isNull a => exact hname a

/-! ## What a row tells apart -/

/-- The row tells two equal predicates apart: the first one holds, the second one does not. -/
def TellsApart (row : Row) (p q : Predicate) : Prop :=
  (p == q) = true ∧ (p.holds row).toOption = some true ∧ (q.holds row).toOption = some false

instance (row : Row) (p q : Predicate) : Decidable (row.TellsApart p q) :=
  inferInstanceAs (Decidable (_ ∧ _ ∧ _))

/-- The row of a single cell, which has a text as its name. -/
def single (name : String) (column : ColumnType) (v : Literal) : Row :=
  ⟨[(.text name, ⟨column, some v⟩)], fun _ ↦ false, .text⟩

end Row

open Predicate in
/-- **Equal predicates are told apart** by labels that are numbers, by whole numbers that are
rounded, by lists where booleans taken from a table are looked for in them, by a name that is a
number, and by sets that are rounded or are compared with labels as a whole. -/
theorem Row.tellsApart_equal :
    (single "lanes" (.labels .int (.ofList [.int 1, .int 2])) (.int 1)).TellsApart
      (compare (.text "lanes") .eq (.int 1)) (compare (.text "lanes") .eq (.bool true)) ∧
    (single "id" .int (.int (2 ^ 53 + 1))).TellsApart
      (compare (.text "id") .eq (.double (.nearest false (2 ^ 53) 1)))
      (compare (.text "id") .eq (.int (2 ^ 53))) ∧
    (single "oneway" .mixed (.list [.bool true])).TellsApart
      (compare (.text "oneway") .eq (.scalar (.flag true)))
      (compare (.text "oneway") .eq (.bool true)) ∧
    (single "lanes" (.labels .int (.ofList [.int 1, .int 2])) (.int 1)).TellsApart
      (compare (.text "lanes") .eq (.list [.bool true]))
      (compare (.text "lanes") .eq (.scalar (.flag true))) ∧
    (Row.mk [(.int 1, ⟨.int, some (.int 5)⟩)] (fun _ ↦ false) .int).TellsApart
      (compare (.int 1) .eq (.int 5)) (compare (.bool true) .eq (.int 5)) ∧
    (single "id" .int (.int (2 ^ 53))).TellsApart
      (isIn (.text "id") (.ofList [.int (2 ^ 53 + 1), .double .one]))
      (isIn (.text "id") (.ofList [.int (2 ^ 53 + 1), .int 1])) ∧
    (single "lanes" (.labels .int (.ofList [.int 1, .int 2])) (.int 1)).TellsApart
      (isIn (.text "lanes") (.ofList [.int 1])) (isIn (.text "lanes") (.ofList [.bool true])) := by
  decide +kernel

namespace Predicate

variable {row : Row}

/-- What is asked of one cell has one outcome if it has that for this cell. -/
theorem toOption_cell_bind_congr {x y : Literal} {f g : Cell → Except Error Bool}
    (hbeq : (x == y) = true) (hname : row.OverlooksName x y)
    (hfg : ∀ cell, row.cell x = .ok cell → (f cell).toOption = (g cell).toOption) :
    (row.cell x >>= f).toOption = (row.cell y >>= g).toOption := by
  rw [← Row.cell_eq_of_beq hbeq hname]
  cases hcell : row.cell x with
  | error e => rfl
  | ok cell => exact hfg cell hcell

theorem toOption_holds_congr {p q : Predicate} (hbeq : beq p q = true) (h : row.Overlooks p q) :
    (p.holds row).toOption = (q.holds row).toOption := by
  fun_induction beq p q with
  | case1 | case2 | case3 => rfl
  | case4 a b c d iha ihb | case5 a b c d iha ihb =>
    rw [Bool.and_eq_true] at hbeq
    exact toOption_bind_congr (iha hbeq.1 h.1) fun _ ↦
      toOption_bind_congr (ihb hbeq.2 h.2) fun _ ↦ rfl
  | case6 a b ih => exact toOption_bind_congr (ih hbeq h) fun _ ↦ rfl
  | case7 a op v b op' w =>
    simp only [Bool.and_eq_true, beq_iff_eq] at hbeq
    obtain ⟨⟨hattr, rfl⟩, hvalue⟩ := hbeq
    exact toOption_cell_bind_congr hattr h.1 fun cell hcell ↦
      Cell.toOption_compare_congr hvalue (h.2 cell hcell)
  | case8 a vs b ws =>
    rw [Bool.and_eq_true] at hbeq
    refine toOption_cell_bind_congr hbeq.1 h.1 fun cell hcell ↦ ?_
    rw [Cell.isIn_congr hbeq.2 (h.2 cell hcell)]
  | case9 a l u li ui b l' u' li' ui' =>
    simp only [Bool.and_eq_true, beq_iff_eq] at hbeq
    obtain ⟨⟨⟨⟨hattr, hlow⟩, hhigh⟩, rfl⟩, rfl⟩ := hbeq
    exact toOption_cell_bind_congr hattr h.1 fun cell hcell ↦
      Cell.toOption_between_congr hlow hhigh (h.2 cell hcell).1 (h.2 cell hcell).2
  | case10 a b => exact toOption_cell_bind_congr hbeq h fun _ _ ↦ rfl
  | case11 t u =>
    have hfunction : t.function = u.function := by
      simp only [BEq.beq, Bool.and_eq_true, decide_eq_true_eq] at hbeq
      exact hbeq.1
    rw [holds, holds, hfunction]
  | case12 => cases hbeq

/-- **Equal predicates hold of the same rows, and fail on the same rows, as long as the rows
overlook the differences between them.** -/
theorem holds_iff_of_beq {p q : Predicate} (hbeq : (p == q) = true) (h : row.Overlooks p q)
    (r : Bool) : p.holds row = .ok r ↔ q.holds row = .ok r := by
  have houtcome := toOption_holds_congr hbeq h
  constructor
  · intro hp
    rw [hp] at houtcome
    exact eq_ok_of_toOption houtcome.symm
  · intro hq
    rw [hq] at houtcome
    exact eq_ok_of_toOption houtcome

/-- A carriageway of two lanes, which is a oneway. -/
def carriageway : Row where
  cells := [(.text "lanes", ⟨.double, some (.double (.nearest false 2 1))⟩),
    (.text "oneway", ⟨.mixed, some (.bool true)⟩)]
  passes _ := false

theorem holds_iff_of_beq_carriageway :
    let p := ((compare (.text "lanes") .ge (.int 2)).and
      (isIn (.text "lanes") (.ofList [.int 1, .int 2]))).and (compare (.text "oneway") .eq (.int 1))
    let q := ((compare (.text "lanes") .ge (.double (.nearest false 2 1))).and
      (isIn (.text "lanes") (.ofList [.double (.nearest false 2 1), .bool true]))).and
        (compare (.text "oneway") .eq (.bool true))
    ((p == q) = true ∧ carriageway.Overlooks p q) ∧
      (p.holds carriageway = .ok true ↔ q.holds carriageway = .ok true) := by
  intro p q
  have hbeq : (p == q) = true := by decide +kernel
  have hname : ∀ a, carriageway.OverlooksName (.text a) (.text a) := fun a e _ ↦ trivial
  have hlanes : carriageway.cell (.text "lanes") =
      .ok ⟨.double, some (.double (.nearest false 2 1))⟩ := rfl
  have honeway : carriageway.cell (.text "oneway") = .ok ⟨.mixed, some (.bool true)⟩ := rfl
  have h : carriageway.Overlooks p q := by
    refine ⟨⟨⟨hname "lanes", ?_⟩, hname "lanes", ?_⟩, hname "oneway", ?_⟩
    · rintro cell hcell v hv
      cases hlanes.symm.trans hcell
      cases hv
      trivial
    · rintro cell hcell a ha
      cases hlanes.symm.trans hcell
      cases ha
      -- two lanes are a member, rounded or not
      have htwo : Scalar.int 2 ∈ (Distinct.ofList [Scalar.int 1, .int 2]).toList :=
        .tail _ (.head _)
      exact .inr (iff_of_true ⟨_, htwo, by decide +kernel⟩ ⟨_, htwo, by decide +kernel⟩)
    · rintro cell hcell v hv
      cases honeway.symm.trans hcell
      cases hv
      trivial
  exact ⟨⟨hbeq, h⟩, holds_iff_of_beq hbeq h true⟩

end Predicate

end RuleCoverage
