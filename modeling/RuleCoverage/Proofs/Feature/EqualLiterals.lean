import RuleCoverage.Proofs.Feature.EqualScalars
import RuleCoverage.Proofs.Predicate.SingleRow

/-!
# Cells and equal literals

Two equal literals are compared with a cell with one outcome, unless the cell is one of the few that
tell them apart (`Cell.Overlooks`).  Scalars are told apart as the column says
(`ColumnType.OverlooksScalars`).  What is in lists and dictionaries is compared part by part, and
there only booleans taken from a table matter (`Literal.Alike`).  A list of one item is compared
like its item, in a column that may have changed its type for it (`ColumnType.facing`); since the
items are equal, this change shows only where rounding does not.

## What is here

* `ColumnType.toOption_equals_congr`, `ColumnType.toOption_orders_congr` — a value of a column and
  two equal literals.
* `Cell.toOption_compare_congr`, `Cell.toOption_between_congr` — a cell and two equal literals.
-/

set_option autoImplicit false

namespace RuleCoverage

/-! ## Items of a list -/

namespace ColumnType

variable {type : ColumnType} {op : Comparison} {a b c : Scalar}

/-- The column as it is compared with the item of a list of one item. -/
def facing (type : ColumnType) (x : Literal) : ColumnType := (Column.facing ⟨type, []⟩ [x]).type

/-- The column with labels that are values like any others. -/
def unlabelled (type : ColumnType) : ColumnType := (Column.unlabelled ⟨type, []⟩).type

theorem not_isLabels_unlabelled (type : ColumnType) : ¬ type.unlabelled.IsLabels := by
  rintro ⟨labelType, all, h⟩
  cases type <;> cases h

theorem unlabelled_eq (hlabels : ¬ type.IsLabels) : type.unlabelled = type := by
  cases type with
  | labels labelType all => exact absurd ⟨labelType, all, rfl⟩ hlabels
  | _ => rfl

/-- Only numbers and booleans change the type of their column, for items of no common type. -/
theorem facing_cases (type : ColumnType) (x : Literal) : type.facing x = type ∨
    type.facing x = .mixed ∧ CommonType.of [x] = .mixed ∧
      (type = .int ∨ type = .double ∨ type = .bool) := by
  rw [facing, Column.facing]
  split
  · rename_i h
    rw [Column.meetsAnything, Bool.and_eq_true, beq_iff_eq] at h
    refine .inr ⟨rfl, h.1, ?_⟩
    cases type <;> simp_all
  · exact .inl rfl

theorem isLabels_facing (x : Literal) : (type.facing x).IsLabels ↔ type.IsLabels := by
  rcases facing_cases type x with h | ⟨h, -, htype⟩
  · rw [h]
  · rw [h]
    refine iff_of_false (by rintro ⟨_, _, ⟨⟩⟩) ?_
    rintro ⟨_, _, rfl⟩
    rcases htype with h | h | h <;> cases h

theorem againstMissing_facing (x : Literal) :
    (type.facing x).againstMissing = type.againstMissing := by
  rcases facing_cases type x with h | ⟨h, -, htype⟩
  · rw [h]
  · rw [h]
    rcases htype with rfl | rfl | rfl <;> rfl

theorem facing_plain (type : ColumnType) (x : Literal) :
    type.facing (x.onScalar Scalar.plain) = type.facing x := by
  cases x with
  | list | dict => rfl
  | scalar s =>
    cases s <;> rfl

theorem unlabelled_facing (type : ColumnType) (x : Literal) :
    (type.facing x).unlabelled = type.unlabelled.facing x := by
  by_cases hlabels : type.IsLabels
  · obtain ⟨labelType, all, rfl⟩ := hlabels
    have hmixed : mixed.facing x = .mixed := by
      rcases facing_cases mixed x with h | h
      · exact h
      · exact h.1
    rcases facing_cases (labels labelType all) x with h | ⟨-, -, h⟩
    · rw [h]
      exact hmixed.symm
    · simp at h
  · rw [unlabelled_eq hlabels, unlabelled_eq (mt (isLabels_facing x).1 hlabels)]

/-- A scalar that shares no type even with itself is a whole number or null. -/
theorem cases_of_mixed (h : CommonType.of [.scalar b] = .mixed) : b = .null ∨ ∃ n, b = .int n := by
  cases b with
  | null => exact .inl rfl
  | int n => exact .inr ⟨n, rfl⟩
  | _ => cases h

/-- In front of a scalar that rounding does not change, it does not matter whether the column
changes its type. -/
theorem key_operands_facing (hb : b.IsExact) :
    ((type.facing (.scalar b)).operands a b).1.key = (type.operands a b).1.key ∧
      ((type.facing (.scalar b)).operands a b).2.key = (type.operands a b).2.key := by
  rcases facing_cases type (.scalar b) with h | ⟨h, hmixed, htype⟩
  · rw [h]
    exact ⟨rfl, rfl⟩
  rw [h]
  rcases cases_of_mixed hmixed with rfl | ⟨n, rfl⟩ <;> rcases htype with rfl | rfl | rfl <;>
    first | exact ⟨rfl, rfl⟩ | exact ⟨rfl, hb.symm⟩

theorem comparesAlike_facing (hkey : b.key = c.key) (hlabels : ¬ type.IsLabels)
    (h : type.OverlooksScalars op a b c) :
    ComparesAlike (type.facing (.scalar b)) (type.facing (.scalar c)) a b c := by
  rcases Scalar.eq_or_isExact hkey with rfl | ⟨hb, hc⟩
  · exact .of_keys rfl rfl
  · have halike := comparesAlike hkey hlabels h
    obtain ⟨hb₁, hb₂⟩ := @key_operands_facing type a b hb
    obtain ⟨hc₁, hc₂⟩ := @key_operands_facing type a c hc
    refine ⟨?_, ?_⟩
    · rw [hb₂, hc₂]
      exact halike.literal
    · rw [hb₁, hb₂, hc₁]
      exact halike.value

end ColumnType

/-! ## Columns and literals -/

namespace Literal

variable {x y : Literal}

def isDict : Literal → Bool
  | .dict _ => true
  | _ => false

theorem tag_plain (x : Literal) : (x.onScalar Scalar.plain).tag = x.tag := by
  cases x with
  | scalar s => exact congrArg Tag.key (Scalar.key_plain s)
  | list | dict => rfl

/-- Literals of one tag are missing together, null together, and dictionaries together. -/
theorem forms_of_tag (h : x.tag = y.tag) :
    x.isMissing = y.isMissing ∧ x.isNull = y.isNull ∧ x.isDict = y.isDict := by
  have hlist : ∀ ts, (∃ k, Tag.ofList ts = .key (.number k)) ∨ Tag.ofList ts = .list ts := by
    intro ts
    rw [Tag.ofList.eq_def]
    split
    · split
      · exact .inl ⟨_, rfl⟩
      · exact .inr rfl
    · exact .inr rfl
  have hmixed : ∀ {s : Scalar} {items : List Literal}, (scalar s).tag = (list items).tag →
      (scalar s).isMissing = false ∧ (scalar s).isNull = false := by
    intro s items hs
    rcases hlist (tagList items) with ⟨k, hk⟩ | hk
    · have hkey : s.key = .number k := Tag.key.inj (hs.trans hk)
      cases s <;> first | exact ⟨rfl, rfl⟩ | cases hkey
    · cases hs.trans hk
  have hdict : ∀ {items : List Literal}, (list items).tag ≠ .dict := by
    intro items hs
    rcases hlist (tagList items) with ⟨k, hk⟩ | hk <;> cases hk.symm.trans hs
  cases x with
  | scalar b =>
    cases y with
    | scalar c =>
      have hkey : b.key = c.key := Tag.key.inj h
      cases b <;> cases c <;> first | exact ⟨rfl, rfl, rfl⟩ | cases hkey
    | list ys => exact ⟨(hmixed h).1, (hmixed h).2, rfl⟩
    | dict ys => cases h
  | list xs =>
    cases y with
    | scalar c => exact ⟨(hmixed h.symm).1.symm, (hmixed h.symm).2.symm, rfl⟩
    | list ys => exact ⟨rfl, rfl, rfl⟩
    | dict ys => exact absurd h hdict
  | dict xs =>
    cases y with
    | scalar c => cases h
    | list ys => exact absurd h.symm hdict
    | dict ys => exact ⟨rfl, rfl, rfl⟩

/-- Of scalars only a boolean taken from a table equals a list. -/
theorem isFlag_of_beq_list {b : Scalar} {items : List Literal}
    (h : beq (.scalar b) (.list items) = true ∨ beq (.list items) (.scalar b) = true) :
    b.isFlag = true := by
  cases b with
  | flag t => rfl
  | _ => rcases h with h | h <;> cases h

theorem eq_of_isNull (h : x.isNull = true) : x = .null := by
  rcases x with s | items | entries
  · cases s <;> first | rfl | cases h
  · cases h
  · cases h

theorem length_of_beqList : ∀ {xs ys : List Literal}, beqList xs ys = true → xs.length = ys.length
  | [], [], _ => rfl
  | _ :: _, _ :: _, h => by
    rw [beqList, Bool.and_eq_true] at h
    exact congrArg (· + 1) (length_of_beqList h.2)

/-- The forms of two equal literals, with lists of one item told apart from other ones.  A scalar
that equals a list is a boolean taken from a table. -/
inductive EqualForms : Literal → Literal → Prop
  | scalars {b c : Scalar} (hkey : b.key = c.key) : EqualForms (.scalar b) (.scalar c)
  | dicts {xs ys : List (Scalar × Literal)} (hlength : xs.length = ys.length) :
      EqualForms (.dict xs) (.dict ys)
  | items {x y : Literal} (hbeq : (x == y) = true) : EqualForms (.list [x]) (.list [y])
  | lists {xs ys : List Literal} (hx : xs.length ≠ 1) (hy : ys.length ≠ 1) :
      EqualForms (.list xs) (.list ys)
  | scalarList {b : Scalar} {ys : List Literal} : EqualForms (.scalar b) (.list ys)
  | listScalar {xs : List Literal} {c : Scalar} : EqualForms (.list xs) (.scalar c)

theorem equalForms (hbeq : (x == y) = true) : x.EqualForms y := by
  have hdict := (forms_of_tag (tag_eq_of_beq x y hbeq)).2.2
  cases x with
  | scalar b =>
    cases y with
    | scalar c =>
      rw [scalar_beq_scalar, Scalar.beq_iff_key] at hbeq
      exact .scalars hbeq
    | list ys => exact .scalarList
    | dict => cases hdict
  | dict xs =>
    cases y with
    | scalar | list => cases hdict
    | dict ys => exact .dicts (beq_iff_eq.1 (Bool.and_eq_true_iff.1 hbeq).1)
  | list xs =>
    cases y with
    | scalar c => exact .listScalar
    | dict => cases hdict
    | list ys =>
      have hlength := length_of_beqList hbeq
      by_cases hone : xs.length = 1
      · obtain ⟨x, rfl⟩ := List.length_eq_one_iff.1 hone
        obtain ⟨y, rfl⟩ := List.length_eq_one_iff.1 (hlength ▸ hone)
        exact .items (Bool.and_eq_true_iff.1 hbeq).1
      · exact .lists hone (hlength ▸ hone)

end Literal

namespace ColumnType

variable {type type' : ColumnType} {op : Comparison} {v x y : Literal}

/-- A value of the column is compared alike with two equal literals.  Scalars are told apart only as
`OverlooksScalars` says.  If the value is a list or a dictionary it is compared part by part with
what is in the literals, and booleans taken from a table have to stand at the same places there. -/
def Overlooks (type : ColumnType) (op : Comparison) (v x y : Literal) : Prop :=
  match v with
  | .scalar a =>
    match x, y with
    | .scalar b, .scalar c => type.OverlooksScalars op a b c
    | .list _, .list _ | .dict _, .dict _ => True
    | _, _ => False
  | .list _ => x.isDict = false → x.Alike y
  | .dict _ => x.isDict = true → x.Alike y

theorem overlooks_self (type : ColumnType) (op : Comparison) (v x : Literal) :
    type.Overlooks op v x x := by
  cases v with
  | list | dict => exact fun _ ↦ .refl x
  | scalar a =>
    cases x with
    | scalar b => exact type.overlooksScalars_self op a b
    | list | dict => trivial

theorem equals_of_not_isScalar (h : ¬ (v.IsScalar ∧ x.IsScalar)) :
    type.equals v x = v.equalValues x := by
  cases v with
  | list | dict => rfl
  | scalar a =>
    cases x with
    | list | dict => rfl
    | scalar b => exact absurd ⟨⟨a, rfl⟩, b, rfl⟩ h

theorem orders_of_not_isScalar (hlabels : ¬ type.IsLabels) (hmissing : x.isMissing = false)
    (h : ¬ (v.IsScalar ∧ x.IsScalar)) :
    type.orders op v x = v.orders op x >>= fun r ↦ .ok (some r) := by
  have hmissing' : ¬ x.isMissing = true := by simp [hmissing]
  rw [orders.eq_def]
  cases type with
  | labels labelType all => exact absurd ⟨labelType, all, rfl⟩ hlabels
  | _ =>
    dsimp only
    rw [if_neg hmissing']
    cases v with
    | list | dict => rfl
    | scalar a =>
      cases x with
      | list | dict => rfl
      | scalar b => exact absurd ⟨⟨a, rfl⟩, b, rfl⟩ h

/-- Part by part, the value cannot tell the literals apart. -/
theorem Overlooks.parts (h : type.Overlooks op v x y) (htag : x.tag = y.tag)
    (hscalars : ¬ (v.IsScalar ∧ x.IsScalar)) :
    ¬ (v.IsScalar ∧ y.IsScalar) ∧ (v.equal? x).toOption = (v.equal? y).toOption ∧
      ∀ op, (v.orders op x).toOption = (v.orders op y).toOption := by
  have halike : x.Alike y → (v.equal? x).toOption = (v.equal? y).toOption ∧
      ∀ op, (v.orders op x).toOption = (v.orders op y).toOption :=
    fun h ↦ ⟨Literal.toOption_equal?_congr v h, fun _ ↦ Literal.toOption_orders_congr v h⟩
  have hdict := (Literal.forms_of_tag htag).2.2
  cases v with
  | scalar a =>
    cases x with
    | scalar b => exact absurd ⟨⟨a, rfl⟩, b, rfl⟩ hscalars
    | list xs =>
      cases y with
      | scalar | dict => exact h.elim
      | list ys =>
        refine ⟨by rintro ⟨-, _, ⟨⟩⟩, ?_⟩
        cases a with
        | flag t =>
          exact ⟨congrArg Except.toOption (Literal.equalsFlag?_congr t htag), fun op ↦
            Literal.toOption_flagOrders_congr t htag⟩
        | _ => simp [Literal.equal?, Literal.orders]
    | dict xs =>
      cases y with
      | scalar | list => exact h.elim
      | dict ys => exact ⟨by rintro ⟨-, _, ⟨⟩⟩, by simp [Literal.equal?, Literal.orders]⟩
  | list vs =>
    refine ⟨by rintro ⟨⟨_, ⟨⟩⟩, -⟩, ?_⟩
    cases hx : x.isDict with
    | false => exact halike (h hx)
    | true =>
      cases x <;> cases hx
      cases y <;> cases hdict
      simp [Literal.equal?, Literal.orders]
  | dict vs =>
    refine ⟨by rintro ⟨⟨_, ⟨⟩⟩, -⟩, ?_⟩
    cases hx : x.isDict with
    | true => exact halike (h hx)
    | false =>
      cases x <;> cases hx <;> cases y <;> cases hdict <;> simp [Literal.equal?, Literal.orders]

theorem toOption_equals_congr (h : type.Overlooks op v x y) (htag : x.tag = y.tag)
    {t t' : ColumnType} (hscalars : ∀ a b c, v = .scalar a → x = .scalar b → y = .scalar c →
      t.equals v x = t'.equals v y) : (t.equals v x).toOption = (t'.equals v y).toOption := by
  by_cases hboth : v.IsScalar ∧ x.IsScalar
  · obtain ⟨⟨a, rfl⟩, b, rfl⟩ := hboth
    cases y with
    | scalar c => rw [hscalars a b c rfl rfl rfl]
    | list | dict => exact h.elim
  · obtain ⟨hboth', hequal, -⟩ := h.parts htag hboth
    rw [equals_of_not_isScalar hboth, equals_of_not_isScalar hboth', Literal.toOption_equalValues,
      Literal.toOption_equalValues, hequal]

theorem orders_of_isLabels (h : type.IsLabels) : type.orders op v x = .error .incomparable := by
  obtain ⟨labelType, all, rfl⟩ := h
  rfl

theorem orders_of_isMissing (hlabels : ¬ type.IsLabels) (h : x.isMissing = true) :
    type.orders op v x = .ok type.againstMissing := by
  rw [orders.eq_def]
  cases type with
  | labels labelType all => exact absurd ⟨labelType, all, rfl⟩ hlabels
  | _ => exact if_pos h

theorem toOption_orders_congr (h : type.Overlooks op v x y) (htag : x.tag = y.tag)
    {t t' : ColumnType} (hlabels : t.IsLabels ↔ t'.IsLabels)
    (hagainst : t.againstMissing = t'.againstMissing)
    (hscalars : ∀ a b c, v = .scalar a → x = .scalar b → y = .scalar c → ¬ t.IsLabels →
      ComparesAlike t t' a b c) :
    (t.orders op v x).toOption = (t'.orders op v y).toOption := by
  by_cases ht : t.IsLabels
  · rw [orders_of_isLabels ht, orders_of_isLabels (hlabels.1 ht)]
  have ht' := mt hlabels.2 ht
  have hmissing := (Literal.forms_of_tag htag).1
  cases hx : x.isMissing with
  | true => rw [orders_of_isMissing ht hx, orders_of_isMissing ht' (hmissing ▸ hx), hagainst]
  | false =>
    have hy := hmissing ▸ hx
    by_cases hboth : v.IsScalar ∧ x.IsScalar
    · obtain ⟨⟨a, rfl⟩, b, rfl⟩ := hboth
      cases y with
      | scalar c =>
        exact (hscalars a b c rfl rfl rfl ht).orders ht ht' (by simp [Scalar.IsMissing, hx])
          (by simp [Scalar.IsMissing, hy])
      | list | dict => exact h.elim
    · obtain ⟨hboth', -, horders⟩ := h.parts htag hboth
      rw [orders_of_not_isScalar ht hx hboth, orders_of_not_isScalar ht' hy hboth']
      exact toOption_bind_congr (horders op) fun _ ↦ rfl

end ColumnType

/-! ## Cells -/

namespace Column

theorem type_facing (c : Column) (x : Literal) : (c.facing [x]).type = c.type.facing x := by
  have htype : ∀ c : Column,
      (c.facing [x]).type = if c.meetsAnything [x] then .mixed else c.type := by
    intro c
    rw [facing]
    split <;> rfl
  exact (htype c).trans (htype ⟨c.type, []⟩).symm

theorem type_unlabelled (c : Column) : c.unlabelled.type = c.type.unlabelled := by
  obtain ⟨type, values⟩ := c
  cases type <;> rfl

end Column

namespace Literal

/-- A list of one item is stored as it is, but for a boolean taken from a table. -/
theorem aligned_singleton (x : Literal) : aligned [x] = [x.onScalar Scalar.plain] := by
  refine congrArg (fun v ↦ [v]) ?_
  cases x with
  | list | dict => rfl
  | scalar s =>
    refine congrArg scalar ?_
    cases s with
    | int n =>
      show (if (!fitOneWord [n]) = true then CommonType.mixed else .int).store (.int n) = .int n
      split <;> rfl
    | _ => rfl

end Literal

namespace Cell

variable {cell : Cell} {op : Comparison} {x y : Literal}

/-- The cell is compared alike with two equal literals: it is missing, or its value is compared
alike with them, or with their items if they are lists of one item.  A boolean taken from a table,
which equals a list that holds nothing else, is not compared alike with that. -/
def Overlooks (cell : Cell) (op : Comparison) (x y : Literal) : Prop :=
  match x, y with
  | .scalar _, .scalar _ | .dict _, .dict _ =>
    ∀ v, cell.value? = some v → cell.column.Overlooks op v x y
  | .list xs, .list ys => ∀ v x y, cell.value? = some v → xs = [x] → ys = [y] →
    cell.column.unlabelled.Overlooks op v (x.onScalar Scalar.plain) (y.onScalar Scalar.plain)
  | _, _ => cell.value? = none

theorem overlooks_self (cell : Cell) (op : Comparison) (x : Literal) : cell.Overlooks op x x := by
  cases x with
  | scalar | dict => exact fun v _ ↦ cell.column.overlooks_self op v _
  | list items =>
    rintro v x y - rfl ⟨⟩
    exact cell.column.unlabelled.overlooks_self op v _

/-! ### Equality -/

theorem equals_dict_toColumn (entries : List (Scalar × Literal)) :
    cell.toColumn.equals (.dict entries) = cell.toColumn.checkEntries 1 entries.length >>=
      fun _ ↦ cell.equals (.dict entries) >>= fun verdict ↦ .ok [verdict] := by
  rw [← mapM_singleton]
  rfl

theorem equals_list_toColumn (x : Literal) : cell.toColumn.equals (.list [x]) =
    Cell.equals ⟨(cell.column.facing x).unlabelled, cell.value?⟩ (x.onScalar Scalar.plain) >>=
      fun verdict ↦ .ok [verdict] := by
  show (Except.ok (Literal.aligned [x]) >>= fun stored ↦
    ((cell.toColumn.facing [x]).unlabelled.cells.zip stored).mapM fun e ↦ e.1.equals e.2) = _
  rw [Literal.aligned_singleton, ok_bind]
  have hcells : (cell.toColumn.facing [x]).unlabelled.cells =
      [⟨(cell.column.facing x).unlabelled, cell.value?⟩] := by
    rw [Column.cells, Column.values_unlabelled, Column.values_facing]
    rw [Column.type_unlabelled, Column.type_facing]
    rfl
  rw [hcells]
  exact mapM_singleton _ _

theorem equals_list_of_length {items : List Literal} (h : items.length ≠ 1) :
    cell.toColumn.equals (.list items) = .error .lengthMismatch := by
  show (if items.length = 1 then _ else _) >>= _ = _
  rw [if_neg h]
  rfl

theorem toOption_equals_congr {t t' : ColumnType} {value? : Option Literal}
    (hmissing : x.isMissing = y.isMissing) (hagainst : t.againstMissing = t'.againstMissing)
    (h : ∀ v, value? = some v → (t.equals v x).toOption = (t'.equals v y).toOption) :
    (Cell.equals ⟨t, value?⟩ x).toOption = (Cell.equals ⟨t', value?⟩ y).toOption := by
  cases value? with
  | none => rfl
  | some v =>
    rw [equals, equals]
    dsimp only
    rw [hmissing, hagainst]
    split
    · rfl
    · exact toOption_bind_congr (h v rfl) fun _ ↦ rfl

/-- A boolean taken from a table equals a list of one item only. -/
theorem equals_toColumn_of_isMissing (hcell : cell.value? = none) {b : Scalar}
    {items : List Literal} (h : Literal.beq (.scalar b) (.list items) = true ∨
      Literal.beq (.list items) (.scalar b) = true) :
    cell.toColumn.equals (.scalar b) = cell.toColumn.equals (.list items) := by
  have hflag := Literal.isFlag_of_beq_list h
  cases b with
  | flag t =>
    have hsole : (Literal.list items).sole?.any (· == .flag t) = true := h.elim id id
    match items, hsole with
    | [x], _ =>
      rw [equals_scalar_toColumn, equals_list_toColumn, equals, equals, hcell]
  | _ => cases hflag

/-- Lists of equal items equal a cell together. -/
theorem toOption_equals_item_congr (hbeq : (x == y) = true)
    (h : ∀ v, cell.value? = some v → cell.column.unlabelled.Overlooks op v
      (x.onScalar Scalar.plain) (y.onScalar Scalar.plain)) :
    (cell.toColumn.equals (.list [x])).toOption = (cell.toColumn.equals (.list [y])).toOption := by
  have htag : (x.onScalar Scalar.plain).tag = (y.onScalar Scalar.plain).tag := by
    rw [Literal.tag_plain, Literal.tag_plain, Literal.tag_eq_of_beq x y hbeq]
  have hlabels : ∀ z : Literal, ¬ (cell.column.unlabelled.facing z).IsLabels := fun z ↦
    mt (ColumnType.isLabels_facing z).1 cell.column.not_isLabels_unlabelled
  rw [equals_list_toColumn, equals_list_toColumn, ColumnType.unlabelled_facing,
    ColumnType.unlabelled_facing, ← ColumnType.facing_plain _ x, ← ColumnType.facing_plain _ y]
  refine toOption_bind_congr (toOption_equals_congr (Literal.forms_of_tag htag).1 ?_ fun v hv ↦ ?_)
    fun _ ↦ rfl
  · rw [ColumnType.againstMissing_facing, ColumnType.againstMissing_facing]
  · have hv := h v hv
    refine ColumnType.toOption_equals_congr hv htag ?_
    rintro a b c rfl hb hc
    rw [hb, hc] at hv htag ⊢
    exact (ColumnType.comparesAlike_facing (Literal.Tag.key.inj htag)
      cell.column.not_isLabels_unlabelled hv).equals (hlabels _) (hlabels _)

/-- **Equal literals equal a cell that overlooks their difference together.** -/
theorem toOption_equals_toColumn_congr (hop : op = .eq ∨ op = .ne) (hbeq : (x == y) = true)
    (h : cell.Overlooks op x y) :
    (cell.toColumn.equals x).toOption = (cell.toColumn.equals y).toOption := by
  have htag := Literal.tag_eq_of_beq x y hbeq
  have hmissing := (Literal.forms_of_tag htag).1
  cases Literal.equalForms hbeq with
  | scalars hkey =>
    rw [equals_scalar_toColumn, equals_scalar_toColumn]
    refine toOption_bind_congr (toOption_equals_congr hmissing rfl fun v hv ↦ ?_) fun _ ↦ rfl
    refine ColumnType.toOption_equals_congr (h v hv) htag ?_
    rintro a _ _ rfl ⟨⟩ ⟨⟩
    exact ColumnType.equals_scalars_congr hkey hop (h _ hv)
  | dicts hlength =>
    rw [equals_dict_toColumn, equals_dict_toColumn, hlength]
    refine toOption_bind_congr rfl fun _ ↦ toOption_bind_congr ?_ fun _ ↦ rfl
    refine toOption_equals_congr hmissing rfl fun v hv ↦ ?_
    refine ColumnType.toOption_equals_congr (h v hv) htag ?_
    rintro a _ _ rfl ⟨⟩ ⟨⟩
  | items hitem => exact toOption_equals_item_congr hitem fun v hv ↦ h v _ _ hv rfl rfl
  | lists hx hy => rw [equals_list_of_length hx, equals_list_of_length hy]
  | scalarList => rw [equals_toColumn_of_isMissing h (.inl hbeq)]
  | listScalar => rw [equals_toColumn_of_isMissing h (.inr hbeq)]

/-! ### Order -/

variable {v : Literal}

theorem orders_dict_toColumn (hcell : cell.value? = some v) (entries : List (Scalar × Literal)) :
    cell.toColumn.orders op (.dict entries) = cell.toColumn.checkEntries 1 entries.length >>=
      fun _ ↦ cell.orders op (.dict entries) >>= fun verdict ↦ .ok [verdict] := by
  obtain ⟨column, value?⟩ := cell
  cases hcell
  rw [← mapM_singleton]
  rfl

theorem orders_list_toColumn (hcell : cell.value? = some v) (hnull : x.isNull = false) :
    cell.toColumn.orders op (.list [x]) =
      (cell.column.facing x).orders op v (x.onScalar Scalar.plain) >>=
        fun verdict ↦ .ok [verdict] := by
  obtain ⟨column, value?⟩ := cell
  cases hcell
  have hcells : ((Column.mk column [some v]).facing [x]).cells = [⟨column.facing x, some v⟩] := by
    rw [Column.cells, Column.values_facing, Column.type_facing]
    rfl
  show (Except.ok (Literal.aligned [x]) >>= fun stored ↦ _) = _
  rw [Literal.aligned_singleton, ok_bind]
  have hany : ¬ (Column.meetsAnything ⟨column, [some v]⟩ [x] && [x].any Literal.isNull) = true := by
    simp [hnull]
  show (if (Column.meetsAnything ⟨column, [some v]⟩ [x] && [x].any Literal.isNull) = true then _
    else (Column.dealt ((Column.mk column [some v]).facing [x]).cells _).mapM fun e ↦
      e.1.orders op e.2) = _
  rw [if_neg hany, hcells]
  exact mapM_singleton _ _

theorem orders_list_of_length {items : List Literal} (hcell : cell.value? = some v)
    (h : items.length ≠ 1) : cell.toColumn.orders op (.list items) = .error .lengthMismatch := by
  obtain ⟨column, value?⟩ := cell
  cases hcell
  show (if items.length = 1 then _ else _) >>= _ = _
  rw [if_neg h]
  rfl

/-- Equal literals that are not missing are ordered with a cell that is there alike. -/
theorem toOption_orders_item_congr (hcell : cell.value? = some v) (hbeq : (x == y) = true)
    (h : cell.column.unlabelled.Overlooks op v (x.onScalar Scalar.plain)
      (y.onScalar Scalar.plain)) :
    (cell.toColumn.orders op (.list [x])).toOption =
      (cell.toColumn.orders op (.list [y])).toOption := by
  have hnulls := (Literal.forms_of_tag (Literal.tag_eq_of_beq x y hbeq)).2.1
  by_cases hnull : x.isNull = true
  · rw [Literal.eq_of_isNull hnull, Literal.eq_of_isNull (hnulls.symm.trans hnull)]
  rw [Bool.not_eq_true] at hnull
  have htag : (x.onScalar Scalar.plain).tag = (y.onScalar Scalar.plain).tag := by
    rw [Literal.tag_plain, Literal.tag_plain, Literal.tag_eq_of_beq x y hbeq]
  rw [orders_list_toColumn hcell hnull, orders_list_toColumn hcell (hnulls.symm.trans hnull),
    ← ColumnType.facing_plain _ x, ← ColumnType.facing_plain _ y]
  refine toOption_bind_congr ?_ fun _ ↦ rfl
  refine ColumnType.toOption_orders_congr h htag ?_ ?_ ?_
  · rw [ColumnType.isLabels_facing, ColumnType.isLabels_facing]
  · rw [ColumnType.againstMissing_facing, ColumnType.againstMissing_facing]
  · rintro a b c rfl hb hc hlabels
    rw [ColumnType.isLabels_facing] at hlabels
    rw [hb, hc, ColumnType.unlabelled_eq hlabels] at h
    rw [hb, hc] at htag ⊢
    exact ColumnType.comparesAlike_facing (Literal.Tag.key.inj htag) hlabels h

/-- **Equal literals are ordered with a cell that overlooks their difference alike.** -/
theorem toOption_orders_toColumn_congr (hbeq : (x == y) = true) (h : cell.Overlooks op x y) :
    (cell.toColumn.orders op x).toOption = (cell.toColumn.orders op y).toOption := by
  cases hcell : cell.value? with
  | none =>
    have hc : cell.toColumn.values = [none] := by rw [toColumn, hcell]
    rw [orders_of_missing hc, orders_of_missing hc]
  | some v =>
    have htag := Literal.tag_eq_of_beq x y hbeq
    have hunseen : ¬ cell.value? = none := by simp [hcell]
    cases Literal.equalForms hbeq with
    | scalars hkey =>
      rw [orders_toColumn, orders_toColumn]
      refine toOption_bind_congr ?_ fun _ ↦ rfl
      rw [orders, orders, hcell]
      refine ColumnType.toOption_orders_congr (h v hcell) htag Iff.rfl rfl ?_
      rintro a _ _ rfl ⟨⟩ ⟨⟩ hlabels
      exact ColumnType.comparesAlike hkey hlabels (h _ hcell)
    | dicts hlength =>
      rw [orders_dict_toColumn hcell, orders_dict_toColumn hcell, hlength]
      refine toOption_bind_congr rfl fun _ ↦ toOption_bind_congr ?_ fun _ ↦ rfl
      rw [orders, orders, hcell]
      refine ColumnType.toOption_orders_congr (h v hcell) htag Iff.rfl rfl ?_
      rintro a _ _ rfl ⟨⟩ ⟨⟩
    | items hitem => exact toOption_orders_item_congr hcell hitem (h v _ _ hcell rfl rfl)
    | lists hx hy => rw [orders_list_of_length hcell hx, orders_list_of_length hcell hy]
    | scalarList | listScalar => exact absurd h hunseen

/-! ### Comparisons of a single cell -/

/-- **A cell that overlooks the difference between two equal literals is compared with them with one
outcome.** -/
theorem toOption_compare_congr (hbeq : (x == y) = true) (h : cell.Overlooks op x y) :
    (cell.compare op x).toOption = (cell.compare op y).toOption := by
  rw [compare, compare]
  refine toOption_bind_congr ?_ fun _ ↦ rfl
  cases op with
  | eq => exact toOption_bind_congr (toOption_equals_toColumn_congr (.inl rfl) hbeq h) fun _ ↦ rfl
  | ne => exact toOption_bind_congr (toOption_equals_toColumn_congr (.inr rfl) hbeq h) fun _ ↦ rfl
  | _ => exact toOption_bind_congr (toOption_orders_toColumn_congr hbeq h) fun _ ↦ rfl

/-- **A cell that overlooks the differences between equal bounds lies between them with one
outcome.** -/
theorem toOption_between_congr {l l' u u' : Literal} {li ui : Bool} (hl : (l == l') = true)
    (hu : (u == u') = true) (hlow : cell.Overlooks (if li then .ge else .gt) l l')
    (hhigh : cell.Overlooks (if ui then .le else .lt) u u') :
    (cell.between l u li ui).toOption = (cell.between l' u' li ui).toOption := by
  rw [between, between]
  refine toOption_bind_congr ?_ fun _ ↦ rfl
  exact toOption_bind_congr (toOption_orders_toColumn_congr hl hlow) fun above ↦
    toOption_bind_congr (toOption_orders_toColumn_congr hu hhigh) fun _ ↦ rfl

end Cell

end RuleCoverage
