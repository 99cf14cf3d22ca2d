import RuleCoverage.Proofs.Feature.RowReading
import RuleCoverage.Proofs.Predicate.SingleRow

/-!
# The rows of a table

A mask is computed column by column, and a scalar is compared with the cells of a column one by one.
So the mask of an atom without lists says of each row of a table what the atom says of that row
alone (`Predicate.holds_of_mask`).  A list is dealt out to the cells, and what it says of one row is
not said of the row alone; but on an attribute without a column every comparison comes to the same
(`Predicate.mask_of_blank`).

Beyond the last row there is a row that has nothing at all.  It is not in the table, but it may be
asked like any other, and what an atom says of it is `Predicate.holdsOfNull`.
-/

set_option autoImplicit false

namespace RuleCoverage

/-! ## Steps for each item -/

section steps

variable {α β γ : Type}

/-- Each result comes from a step. -/
theorem exists_of_mem_mapM {f : α → Except Error β} {xs : List α} {ys : List β}
    (h : xs.mapM f = .ok ys) : ∀ y ∈ ys, ∃ x ∈ xs, f x = .ok y := by
  rw [mapM_eq_ok] at h
  induction h with
  | nil => exact List.forall_mem_nil _
  | cons hxy _ ih =>
    refine List.forall_mem_cons.2 ⟨⟨_, List.mem_cons_self, hxy⟩, fun y hy ↦ ?_⟩
    obtain ⟨x, hx, hxy⟩ := ih y hy
    exact ⟨x, List.mem_cons_of_mem _ hx, hxy⟩

/-- What is true of the results of the steps is true of each of them. -/
theorem forall_of_mapM_eq_ok {f : α → Except Error β} {Q : β → Prop} {xs : List α} {ys : List β}
    (hf : ∀ x ∈ xs, ∀ y, f x = .ok y → Q y) (h : xs.mapM f = .ok ys) : ∀ y ∈ ys, Q y := by
  intro y hy
  obtain ⟨x, hx, hxy⟩ := exists_of_mem_mapM h y hy
  exact hf x hx y hxy

theorem exists_mapM_eq_ok {f : α → Except Error β} {xs : List α}
    (h : ∀ x ∈ xs, ∃ y, f x = .ok y) : ∃ ys, xs.mapM f = .ok ys := by
  induction xs with
  | nil => exact ⟨[], rfl⟩
  | cons x xs ih =>
    rw [List.forall_mem_cons] at h
    obtain ⟨y, hy⟩ := h.1
    obtain ⟨ys, hys⟩ := ih h.2
    exact ⟨y :: ys, by rw [List.mapM_cons, hy, hys]; rfl⟩

/-- One step after the other for each item is both steps for each item. -/
theorem mapM_bind_mapM_eq_ok {f : α → Except Error β} {g : β → Except Error γ} {xs : List α}
    {zs : List γ} : (xs.mapM f >>= fun ys ↦ ys.mapM g) = .ok zs ↔
      List.Forall₂ (fun x z ↦ (f x >>= g) = .ok z) xs zs := by
  induction xs generalizing zs with
  | nil =>
    rw [List.mapM_nil, List.forall₂_nil_left_iff]
    exact ⟨fun h ↦ (Except.ok.inj h).symm, fun h ↦ h ▸ rfl⟩
  | cons x xs ih =>
    simp only [bind_eq_ok, mapM_eq_ok, List.forall₂_cons_left_iff] at ih ⊢
    constructor
    · rintro ⟨_, ⟨y, ys, hy, hys, rfl⟩, hzs⟩
      rw [List.forall₂_cons_left_iff] at hzs
      obtain ⟨z, zs', hz, hzs', rfl⟩ := hzs
      exact ⟨z, zs', ⟨y, hy, hz⟩, ih.1 ⟨ys, hys, hzs'⟩, rfl⟩
    · rintro ⟨z, zs', ⟨y, hy, hz⟩, hzs', rfl⟩
      obtain ⟨ys, hys, hzs'⟩ := ih.2 hzs'
      exact ⟨y :: ys, ⟨y, ys, hy, hys, rfl⟩, .cons hz hzs'⟩

theorem mapM_bind_map_eq_ok {f : α → Except Error β} {g : β → γ} {xs : List α} {zs : List γ} :
    (xs.mapM f >>= fun ys ↦ .ok (ys.map g)) = .ok zs ↔
      List.Forall₂ (fun x z ↦ (f x >>= fun y ↦ .ok (g y)) = .ok z) xs zs := by
  rw [← mapM_bind_mapM_eq_ok (g := fun y ↦ .ok (g y))]
  have hpure : ∀ ys : List β, (ys.mapM fun y ↦ (.ok (g y) : Except Error γ)) = .ok (ys.map g) :=
    fun ys ↦ mapM_eq_ok.2 (List.forall₂_map_right_iff.2 (List.forall₂_same.2 fun _ _ ↦ rfl))
  simp only [hpure]

end steps

/-! ## Columns and scalars -/

namespace Column

variable {c : Column} {b l h : Scalar} {bs : List Bool}

/-- A column that has nothing in it orders no cell, which is what each of its cells says. -/
theorem orders_scalar (op : Comparison) (c : Column) (b : Scalar) :
    c.orders op (.scalar b) = c.cells.mapM fun cell ↦ cell.orders op (.scalar b) := by
  rw [orders.eq_def]
  split
  · rename_i hempty
    symm
    rw [cells, mapM_eq_ok, List.forall₂_map_left_iff, List.forall₂_map_right_iff, List.forall₂_same]
    intro v hv
    cases v with
    | none => rfl
    | some v =>
      rw [present, List.isEmpty_iff, List.filterMap_eq_nil_iff] at hempty
      cases hempty _ hv
  · rfl

/-- A column is compared with a scalar cell by cell. -/
theorem compare_scalar {op : Comparison} : c.compare op (.scalar b) = .ok bs ↔
    List.Forall₂ (fun v r ↦ Cell.compare op ⟨c.type, v⟩ (.scalar b) = .ok r) c.values bs := by
  rw [← List.forall₂_map_left_iff (f := Cell.mk c.type)
    (R := fun cell r ↦ Cell.compare op cell (.scalar b) = .ok r)]
  by_cases heq : op = .eq
  · subst heq
    simp only [Cell.compare_eq_scalar]
    exact mapM_bind_map_eq_ok
  by_cases hne : op = .ne
  · subst hne
    simp only [Cell.compare_ne_scalar]
    exact mapM_bind_map_eq_ok
  simp only [Cell.compare_order_scalar heq hne]
  rw [← mapM_bind_mapM_eq_ok, ← cells, ← orders_scalar]
  cases op with
  | eq => exact absurd rfl heq
  | ne => exact absurd rfl hne
  | _ => exact Iff.rfl

/-- A column is compared with two bounds cell by cell. -/
theorem between_scalar {li hi : Bool} : c.between (.scalar l) (.scalar h) li hi = .ok bs ↔
    List.Forall₂ (fun v r ↦ Cell.between ⟨c.type, v⟩ (.scalar l) (.scalar h) li hi = .ok r)
      c.values bs := by
  rw [← List.forall₂_map_left_iff (f := Cell.mk c.type)
    (R := fun cell r ↦ Cell.between cell (.scalar l) (.scalar h) li hi = .ok r)]
  simp only [Cell.between_scalar, between, orders_scalar, cells]
  generalize c.values.map (Cell.mk c.type) = cells
  induction cells generalizing bs with
  | nil =>
    rw [List.forall₂_nil_left_iff]
    exact ⟨fun h ↦ (Except.ok.inj h).symm, fun h ↦ h ▸ rfl⟩
  | cons cell cells ih =>
    simp only [bind_eq_ok, mapM_eq_ok, List.forall₂_cons_left_iff] at ih ⊢
    constructor
    · rintro ⟨_, ⟨above, as, ha, has, rfl⟩, _, ⟨below, es, hb, hes, rfl⟩, hbs⟩
      rw [List.zipWith_cons_cons, List.forall₂_cons_left_iff] at hbs
      obtain ⟨r, rs, hr, hrs, rfl⟩ := hbs
      exact ⟨r, rs, ⟨above, ha, below, hb, hr⟩, ih.1 ⟨as, has, es, hes, hrs⟩, rfl⟩
    · rintro ⟨r, rs, ⟨above, ha, below, hb, hr⟩, hrs, rfl⟩
      obtain ⟨as, has, es, hes, hrs⟩ := ih.2 hrs
      exact ⟨_, ⟨above, as, ha, has, rfl⟩, _, ⟨below, es, hb, hes, rfl⟩, .cons hr hrs⟩

/-! ### Columns without values -/

/-- Nothing is in the column. -/
def IsBlank (c : Column) : Prop := ∀ v ∈ c.values, v = none

theorem isBlank_missing (rows : Nat) : (missing rows).IsBlank :=
  fun _ hv ↦ List.eq_of_mem_replicate hv

theorem IsBlank.equals (hc : c.IsBlank) {x : Literal} {verdicts : List Verdict}
    (h : c.equals x = .ok verdicts) : ∀ v ∈ verdicts, v = some false := by
  have hcell : ∀ {d : Column} {y : Literal}, d.values = c.values →
      ∀ cell ∈ d.cells, ∀ v, cell.equals y = .ok v → v = some false := by
    intro d y hd cell hcell v hv
    rw [cells, hd] at hcell
    obtain ⟨w, hw, rfl⟩ := List.mem_map.1 hcell
    rw [hc w hw] at hv
    exact (Except.ok.inj hv).symm
  cases x with
  | scalar s => exact forall_of_mapM_eq_ok (hcell rfl) h
  | dict entries =>
    obtain ⟨_, -, h⟩ := bind_eq_ok.1 h
    exact forall_of_mapM_eq_ok (hcell rfl) h
  | list items =>
    obtain ⟨stored, -, h⟩ := bind_eq_ok.1 h
    refine forall_of_mapM_eq_ok (fun e he ↦ ?_) h
    exact hcell ((values_unlabelled _).trans (values_facing c items)) e.1
      (List.of_mem_zip (a := e.1) (b := e.2) he).1

theorem IsBlank.orders (hc : c.IsBlank) (op : Comparison) (x : Literal) :
    c.orders op x = .ok (c.values.map fun _ ↦ some false) := by
  rw [Column.orders.eq_def, if_pos]
  rw [present, List.isEmpty_iff, List.filterMap_eq_nil_iff]
  exact hc

/-- Nothing differs from everything, and no other comparison holds of it. -/
theorem IsBlank.compare (hc : c.IsBlank) {op : Comparison} {x : Literal}
    (h : c.compare op x = .ok bs) : ∀ b ∈ bs, b = (op == .ne) := by
  cases op with
  | eq | ne =>
    obtain ⟨verdicts, hv, h⟩ := bind_eq_ok.1 h
    cases h
    rw [List.forall_mem_map]
    intro v hmem
    rw [hc.equals hv v hmem]
    rfl
  | _ =>
    obtain ⟨verdicts, hv, h⟩ := bind_eq_ok.1 h
    cases (hc.orders _ x).symm.trans hv
    refine forall_of_mapM_eq_ok (List.forall_mem_map.2 fun v _ b hb ↦ ?_) h
    exact (Except.ok.inj hb).symm

/-- Nothing lies nowhere. -/
theorem IsBlank.between (hc : c.IsBlank) {x y : Literal} {li hi : Bool}
    (h : c.between x y li hi = .ok bs) : ∀ b ∈ bs, b = false := by
  rw [Column.between, hc.orders, hc.orders, ok_bind, ok_bind, List.zipWith_map,
    List.zipWith_self] at h
  refine forall_of_mapM_eq_ok (List.forall_mem_map.2 fun v _ b hb ↦ ?_) h
  exact (Except.ok.inj hb).symm

end Column

/-! ## Rows -/

namespace Frame

variable {frame : Frame} {attr : Literal} {c : Column}

/-- Every column has one cell for each row. -/
def IsRectangular (frame : Frame) : Prop := ∀ e ∈ frame.columns, e.2.values.length = frame.rows

/-- Whether a row passes a test; a row beyond the last one passes none. -/
def passesTest (frame : Frame) (tests : RowTests) (test : String) (i : Nat) : Bool :=
  (((tests test frame).align frame.rows).toOption.bind fun answers ↦ answers[i]?).getD false

/-- The row of a table with the answers of the tests for it. -/
def testedRow (frame : Frame) (tests : RowTests) (i : Nat) : Row :=
  frame.row (frame.passesTest tests) i

/-- What a row has for an attribute is what the attribute's column has there. -/
theorem cell_row (passes : String → Nat → Bool) (i : Nat) (attr : Literal) :
    (frame.row passes i).cell attr =
      (fun c ↦ (⟨c.type, c.values[i]?.join⟩ : Cell)) <$> frame.column attr := by
  cases attr with
  | list | dict => rfl
  | scalar s =>
    rw [column, Row.cell, row, List.find?_map]
    dsimp only [Function.comp_def]
    cases frame.columns.find? fun e ↦ frame.nameType.finds e.1 s with
    | some e => rfl
    | none =>
      show Except.ok (⟨.mixed, none⟩ : Cell) =
        .ok ⟨.mixed, (List.replicate frame.rows none)[i]?.join⟩
      rw [List.getElem?_replicate]
      split <;> rfl

theorem exists_column (s : Scalar) : ∃ c, frame.column (.scalar s) = .ok c := by
  rw [column]
  split <;> exact ⟨_, rfl⟩

end Frame

namespace Cell

/-- Nothing differs from a scalar, and no other comparison holds of it. -/
theorem compare_of_nothing (type : ColumnType) (op : Comparison) (b : Scalar) :
    (⟨type, none⟩ : Cell).compare op (.scalar b) = .ok (op == .ne) := by
  by_cases heq : op = .eq
  · subst heq
    rw [compare_eq_scalar]
    rfl
  by_cases hne : op = .ne
  · subst hne
    rw [compare_ne_scalar]
    rfl
  rw [compare_order_scalar heq hne]
  show Except.ok false = _
  rw [beq_false_of_ne hne]

end Cell

namespace Predicate

variable {frame : Frame} {tests : RowTests} {atom p : Predicate} {bs : List Bool} {a : String}

/-- Cells that are asked one by one are asked so for each row. -/
theorem getD_of_forall₂ {values : List (Option Literal)} {f : Option Literal → Except Error Bool}
    {r : Bool} (hnone : f none = .ok r)
    (h : List.Forall₂ (fun v b ↦ f v = .ok b) values bs) (i : Nat) :
    f values[i]?.join = .ok (bs[i]?.getD r) := by
  obtain ⟨hlength, h⟩ := List.forall₂_iff_get.1 h
  by_cases hi : i < values.length
  · rw [List.getElem?_eq_getElem hi, List.getElem?_eq_getElem (hlength ▸ hi)]
    exact h i hi (hlength ▸ hi)
  · rw [List.getElem?_eq_none (not_lt.1 hi), List.getElem?_eq_none (hlength ▸ not_lt.1 hi)]
    exact hnone

/-- **The mask of an atom without lists says of each row what the atom says of the row alone.** -/
theorem holds_of_mask (hm : atom.IsMember) (h : atom.mask tests frame = .ok bs) (i : Nat) :
    atom.holds (frame.testedRow tests i) = .ok (bs[i]?.getD atom.holdsOfNull) := by
  cases atom with
  | always | never | and | or | not => exact hm.elim
  | bare => cases h
  | test t =>
    rw [mask] at h
    show Except.ok (frame.passesTest tests t.function i) = _
    rw [Frame.passesTest, h]
    rfl
  | compare attr op v =>
    obtain ⟨-, b, rfl⟩ := hm
    obtain ⟨c, hc, h⟩ := bind_eq_ok.1 h
    rw [holds, Frame.testedRow, Frame.cell_row, hc]
    exact getD_of_forall₂ (f := fun v ↦ Cell.compare op ⟨c.type, v⟩ (.scalar b))
      (Cell.compare_of_nothing ..) (Column.compare_scalar.1 h) i
  | between attr l u li ui =>
    obtain ⟨-, ⟨s, rfl⟩, t, rfl⟩ := hm
    obtain ⟨c, hc, h⟩ := bind_eq_ok.1 h
    rw [holds, Frame.testedRow, Frame.cell_row, hc]
    exact getD_of_forall₂ (f := fun v ↦ Cell.between ⟨c.type, v⟩ (.scalar s) (.scalar t) li ui)
      (Cell.between_of_missing rfl) (Column.between_scalar.1 h) i
  | isIn attr vs =>
    obtain ⟨c, hc, h⟩ := bind_eq_ok.1 h
    rw [holds, Frame.testedRow, Frame.cell_row, hc, ← Except.ok.inj h]
    refine getD_of_forall₂ (f := fun v ↦ .ok (Cell.isIn ⟨c.type, v⟩ vs)) rfl ?_ i
    rw [Column.isIn, Column.cells, List.map_map, List.forall₂_map_right_iff, List.forall₂_same]
    exact fun _ _ ↦ rfl
  | isNull attr =>
    obtain ⟨c, hc, h⟩ := bind_eq_ok.1 h
    rw [holds, Frame.testedRow, Frame.cell_row, hc, ← Except.ok.inj h]
    refine getD_of_forall₂ (f := fun v ↦ .ok (Cell.isMissing ⟨c.type, v⟩)) rfl ?_ i
    rw [Column.isMissing, List.forall₂_map_right_iff, List.forall₂_same]
    exact fun _ _ ↦ rfl

/-- An atom on a named attribute has a mask if it has a truth value on each row. -/
theorem exists_mask_of_holds (hm : atom.IsMember) (hn : atom.named? = some a)
    (h : ∀ i, ∃ r, atom.holds (frame.testedRow tests i) = .ok r) :
    ∃ bs, atom.mask tests frame = .ok bs := by
  obtain ⟨c, hc⟩ := frame.exists_column (.text a)
  have hcells : ∀ {f : Cell → Except Error Bool},
      (∀ i : Nat, ∃ r, f ⟨c.type, c.values[i]?.join⟩ = .ok r) →
      ∃ bs, List.Forall₂ (fun v b ↦ f ⟨c.type, v⟩ = .ok b) c.values bs := by
    intro f hf
    have hvalues : ∀ v ∈ c.values, ∃ r, f ⟨c.type, v⟩ = .ok r := by
      intro v hv
      obtain ⟨i, hi⟩ := List.mem_iff_getElem?.1 hv
      have hfi := hf i
      rwa [hi] at hfi
    obtain ⟨bs, hbs⟩ := exists_mapM_eq_ok hvalues
    exact ⟨bs, mapM_eq_ok.1 hbs⟩
  have hattr := Row.attr?_of_named? hn
  cases atom with
  | compare b op v =>
    cases hattr
    obtain ⟨-, s, rfl⟩ := hm
    obtain ⟨bs, hbs⟩ := hcells (f := fun cell ↦ cell.compare op (.scalar s)) fun i ↦ by
      have hi := h i
      rwa [holds, Frame.testedRow, Frame.cell_row, hc] at hi
    exact ⟨bs, by rw [mask, hc, ok_bind, Column.compare_scalar.2 hbs]⟩
  | between b l u li ui =>
    cases hattr
    obtain ⟨-, ⟨s, rfl⟩, t, rfl⟩ := hm
    obtain ⟨bs, hbs⟩ := hcells (f := fun cell ↦ cell.between (.scalar s) (.scalar t) li ui)
      fun i ↦ by
      have hi := h i
      rwa [holds, Frame.testedRow, Frame.cell_row, hc] at hi
    exact ⟨bs, by rw [mask, hc, ok_bind, Column.between_scalar.2 hbs]⟩
  | isIn b vs | isNull b =>
    cases hattr
    exact ⟨_, by rw [mask, hc]; rfl⟩
  | _ => cases hattr

/-- On an attribute that nothing is there for, every atom comes to the same on all rows. -/
theorem mask_of_blank {attr : Literal} {c : Column} (hattr : atom.attr? = some attr)
    (hc : frame.column attr = .ok c) (hblank : c.IsBlank) (h : atom.mask tests frame = .ok bs) :
    ∀ b ∈ bs, b = atom.holdsOfNull := by
  cases atom with
  | compare b op v =>
    cases hattr
    rw [mask, hc] at h
    exact hblank.compare h
  | between b l u li ui =>
    cases hattr
    rw [mask, hc] at h
    exact hblank.between h
  | isIn b vs =>
    cases hattr
    rw [mask, hc] at h
    cases h
    refine List.forall_mem_map.2 (List.forall_mem_map.2 fun v hv ↦ ?_)
    rw [hblank v hv]
    rfl
  | isNull b =>
    cases hattr
    rw [mask, hc] at h
    cases h
    refine List.forall_mem_map.2 fun v hv ↦ ?_
    rw [hblank v hv]
    rfl
  | _ => cases hattr

/-- Which atoms are true of a row, as their masks say. -/
def TrueAt (tests : RowTests) (frame : Frame) (i : Nat) (atom : Predicate) : Prop :=
  ∃ bs, atom.mask tests frame = .ok bs ∧ bs[i]?.getD atom.holdsOfNull = true

end Predicate

end RuleCoverage
