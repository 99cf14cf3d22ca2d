import RuleCoverage.Feature.Column
import RuleCoverage.Proofs.Predicate.Classes
import RuleCoverage.Proofs.Values.Members

/-!
# Cells compared by value

A column may change what it compares: whole numbers are rounded where they meet doubles, labels that
are numbers are never looked for by booleans, a boolean taken from a table is compared with what is
in a list, and a column of texts has no answer for a missing literal.  Where none of this plays a
role (`Cell.Meets`, `Cell.Decides`), a cell is compared by its key alone, and so it does not matter
in which of its forms a number is written.

## What is here

* `Cell.equals_scalar`, `Cell.isIn_eq` — equality and membership are those of keys.
* `Cell.orders_congr` — order does not see in which form a number is written.
* `Cell.IsNumeric`, `Cell.IsNumeric.orders_number` — a cell that holds a number is ordered as that
  number.
-/

set_option autoImplicit false

namespace RuleCoverage

/-! ## Scalars -/

namespace Scalar

variable {a b : Scalar}

/-- The scalar is the same number after rounding to a double, if it is a number. -/
def IsExact (s : Scalar) : Prop := s.widened.key = s.key

theorem isExact_double (x : Double) : (double x).IsExact := rfl

theorem key_plain_widened (h : b.IsExact) : b.plain.widened.key = b.key := by
  cases b with
  | flag b => rfl
  | _ => exact h

theorem IsExact.plain (h : b.IsExact) : b.plain.IsExact := by
  cases b with
  | flag b => rfl
  | _ => exact h

/-- A scalar stands for a missing value. -/
def IsMissing (s : Scalar) : Prop := (Literal.scalar s).isMissing = true

theorem isMissing_iff (s : Scalar) : s.IsMissing ↔ s = .null ∨ s = .nan := by
  cases s <;> simp [IsMissing, Literal.isMissing]

/-- Only a missing scalar has the key of one. -/
theorem isMissing_congr (h : a.key = b.key) : a.IsMissing ↔ b.IsMissing := by
  cases a <;> cases b <;> simp_all [IsMissing, Literal.isMissing, key]

theorem eq_of_isMissing (ha : a.IsMissing) (h : a.key = b.key) : a = b := by
  rw [isMissing_iff] at ha
  rcases ha with rfl | rfl <;> cases b <;> simp_all [key]

theorem number?_eq_some {s : Scalar} {x : Extended} : s.number? = some x ↔ s.key = .number x := by
  cases s <;> simp [number?, key]

/-- The order of keys. -/
def Key.orders (op : Comparison) : Key → Key → Bool
  | .text s, .text t => op.accepts (if s < t then .lt else if t < s then .gt else .eq)
  | .number x, .number y => op.accepts (x.compare y)
  | _, _ => false

/-- Where two scalars have an order, it is that of their keys. -/
theorem orders_eq {op : Comparison} {r : Bool} (h : a.orders op b = .ok r) :
    r = Key.orders op a.key b.key := by
  cases a <;> cases b <;> simp_all [orders, kind?, number?, key, Key.orders]

/-- Numbers have an order. -/
theorem orders_number {op : Comparison} {x y : Extended} (ha : a.number? = some x)
    (hb : b.number? = some y) : a.orders op b = .ok (op.accepts (x.compare y)) := by
  cases a <;> cases b <;> simp_all [orders, kind?, number?]

end Scalar

/-! ## Columns and scalars -/

namespace ColumnType

/-- A value of the column is compared with a scalar as it stands.  What may be rounded is a double
already: the scalar in a column of numbers and among labels that are doubles, and a whole number in
a cell where it meets a double.  And neither is a number among labels looked for by a boolean that
counts as it, nor a boolean by a number. -/
def Meets (type : ColumnType) (a b : Scalar) : Prop :=
  match type with
  | .double => b.IsExact
  | .int => b.IsExact ∧ ∀ x, b = .double x → a.IsExact
  | .labels .double _ => b.IsExact ∧ (a.key = b.key → b.isBool = false)
  | .labels .int _ => a.key = b.key → b.isBool = false
  | .labels .bool _ => a.key = b.key → b.isBool = true
  | _ => True

variable {type : ColumnType} {a b : Scalar}

/-- A boolean taken from a table may be written as a plain one. -/
theorem Meets.plain (h : type.Meets a b) : type.Meets a b.plain := by
  cases b with
  | flag t =>
    cases type with
    | int => exact ⟨rfl, fun _ ↦ Scalar.noConfusion⟩
    | labels labelType all => cases labelType <;> exact h
    | _ => exact h
  | _ => exact h

/-- In a column of numbers scalars are doubles, as far as they are numbers. -/
theorem Meets.isExact (htype : type = .int ∨ type = .double) (h : type.Meets a b) : b.IsExact := by
  rcases htype with rfl | rfl
  · exact h.1
  · exact h

/-- What is compared has the keys of what was to be compared. -/
theorem key_operands (h : type.Meets a b) :
    (type.operands a b).1.key = a.key ∧ (type.operands a b).2.key = b.key := by
  have hplain := Scalar.key_plain b
  cases type with
  | mixed => exact ⟨rfl, rfl⟩
  | double => exact ⟨rfl, Scalar.key_plain_widened h⟩
  | int =>
    cases b with
    | double x => exact ⟨h.2 x rfl, rfl⟩
    | _ => exact ⟨rfl, hplain⟩
  | _ => exact ⟨rfl, hplain⟩

/-- A label is found by a scalar exactly when they have one key. -/
theorem finds_eq {type : CommonType} {all : Distinct Scalar} (h : (labels type all).Meets a b)
    (hmiss : ¬ b.IsMissing) : type.finds a b = decide (a.key = b.key) := by
  have hbeq : ∀ c : Scalar, (a == c) = decide (a.key = c.key) := fun c ↦ rfl
  cases type with
  | mixed => exact hbeq b
  | text =>
    cases b with
    | null => exact absurd rfl hmiss
    | _ => exact hbeq _
  | int =>
    rw [CommonType.finds, hbeq]
    by_cases hk : a.key = b.key
    · simp [h hk, hk]
    · simp [hk]
  | double =>
    rw [CommonType.finds, hbeq, show b.widened.key = b.key from h.1]
    by_cases hk : a.key = b.key
    · simp [h.2 hk, hk]
    · simp [hk]
  | bool =>
    rw [CommonType.finds, hbeq]
    by_cases hk : a.key = b.key
    · simp [h hk, hk]
    · simp [hk]

theorem equals_scalar (h : type.Meets a b) (hmiss : ¬ b.IsMissing) :
    type.equals (.scalar a) (.scalar b) = .ok (decide (a.key = b.key)) := by
  cases type with
  | labels labelType all => rw [equals, finds_eq h hmiss]
  | _ =>
    have hkeys := key_operands h
    rw [← hkeys.1, ← hkeys.2]
    rfl

/-- A label agrees with the members of a set that have its key. -/
theorem agree_eq {type : CommonType} {all : Distinct Scalar} {vs : List Scalar}
    (h : (labels type all).Meets a b) (hmem : b ∈ vs) :
    type.agree (if vs.all Scalar.isBool then .bool else .mixed) a b = decide (a.key = b.key) := by
  by_cases hall : vs.all Scalar.isBool = true
  · have hbool := List.all_eq_true.1 hall b hmem
    rw [if_pos hall]
    have hnumbers : (a.key = b.key → b.isBool = false) → false = decide (a.key = b.key) := by
      intro hfalse
      refine (decide_eq_false fun hk ↦ ?_).symm
      rw [hfalse hk] at hbool
      cases hbool
    cases type with
    | int => exact hnumbers h
    | double => exact hnumbers h.2
    | _ => rfl
  · rw [if_neg hall]
    cases type <;> rfl

/-- A set of exact numbers has the same members after rounding. -/
theorem exists_mem_members {vs : List Scalar} (h : ∀ b ∈ vs, type.Meets a b) {k : Scalar.Key} :
    (∃ b ∈ type.members vs, k = b.key) ↔ ∃ b ∈ vs, k = b.key := by
  have hwiden : (∀ b ∈ vs, b.IsExact) →
      ((∃ b ∈ vs.map Scalar.widened, k = b.key) ↔ ∃ b ∈ vs, k = b.key) := by
    intro hexact
    simp only [List.mem_map, exists_exists_and_eq_and]
    refine exists_congr fun b ↦ and_congr_right fun hb ↦ ?_
    rw [show b.widened.key = b.key from hexact b hb]
  cases type with
  | int | double =>
    rw [members]
    split
    · exact hwiden fun b hb ↦ (h b hb).isExact (by simp)
    · exact Iff.rfl
  | _ => exact Iff.rfl

/-- **A value of the column is a member of a set exactly when a scalar there has its key.** -/
theorem contains_scalar {vs : List Scalar} (h : ∀ b ∈ vs, type.Meets a b) :
    type.contains (.scalar a) vs = true ↔ ∃ b ∈ vs, a.key = b.key := by
  have hany : (type.members vs).any (a == ·) = true ↔ ∃ b ∈ vs, a.key = b.key := by
    rw [List.any_eq_true]
    simp only [Scalar.beq_iff_key]
    exact exists_mem_members h
  cases type with
  | labels labelType all =>
    rw [contains, CommonType.agreesWithSome, List.any_eq_true]
    refine exists_congr fun b ↦ and_congr_right fun hb ↦ ?_
    rw [agree_eq (h b hb) hb, decide_eq_true_iff]
  | _ => exact hany

/-- Outside a column of labels, scalars are ordered as they are compared. -/
theorem orders_scalar {op : Comparison} (hlabels : ∀ t all, type ≠ labels t all)
    (hmiss : ¬ b.IsMissing) : type.orders op (.scalar a) (.scalar b) =
      (type.operands a b).1.orders op (type.operands a b).2 >>= fun r ↦ .ok (some r) := by
  rw [orders.eq_def]
  cases type with
  | labels t all => exact absurd rfl (hlabels t all)
  | _ => exact if_neg hmiss

theorem not_labels_of_orders {op : Comparison} {v x : Literal} {verdict : Verdict}
    (h : type.orders op v x = .ok verdict) : ∀ t all, type ≠ labels t all := by
  rintro t all rfl
  cases h

/-- Neither a list nor a dictionary is ordered with a scalar, except a list with a boolean taken
from a table. -/
theorem isScalar_of_orders {op : Comparison} {v : Literal} {verdict : Verdict}
    (hmiss : ¬ b.IsMissing) (hflag : ∀ items, v = .list items → ∀ t, b ≠ .flag t)
    (h : type.orders op v (.scalar b) = .ok verdict) : v.IsScalar := by
  cases v with
  | scalar a => exact ⟨a, rfl⟩
  | dict entries =>
    rw [orders.eq_def] at h
    cases type with
    | labels => cases h
    | _ =>
      obtain ⟨r, hr, -⟩ := bind_eq_ok.1 ((if_neg hmiss).symm.trans h)
      cases hr
  | list items =>
    rw [orders.eq_def] at h
    cases type with
    | labels => cases h
    | _ =>
      obtain ⟨r, hr, -⟩ := bind_eq_ok.1 ((if_neg hmiss).symm.trans h)
      cases b with
      | flag t => exact absurd rfl (hflag items rfl t)
      | _ => simp [Literal.orders] at hr

end ColumnType

/-! ## Cells -/

namespace Cell

variable {cell : Cell} {a b : Scalar}

/-- The key of what is in the cell, if it has one. -/
def key? (cell : Cell) : Option Scalar.Key := cell.value?.bind fun v ↦ (Value.literal v).key?

/-- The cell is compared with a scalar by its key, as far as there is an answer at all. -/
def Meets (cell : Cell) (b : Scalar) : Prop :=
  match cell.value? with
  | none | some (.dict _) => True
  | some (.scalar a) => ¬ a.IsMissing ∧ cell.column.Meets a b
  | some (.list _) => ∀ t, b ≠ .flag t

/-- The cell is compared with a scalar by its key, and there is an answer. -/
def Decides (cell : Cell) (b : Scalar) : Prop :=
  cell.Meets b ∧ (cell.column = .text → ¬ b.IsMissing)

theorem meets_of_missing (h : cell.value? = none) : cell.Meets b := by
  rw [Meets, h]
  trivial

theorem Decides.plain (h : cell.Decides b) : cell.Decides b.plain := by
  cases b with
  | flag t =>
    obtain ⟨column, value?⟩ := cell
    refine ⟨?_, fun _ hm ↦ Bool.false_ne_true hm⟩
    rcases value? with _ | (a | items | entries)
    · trivial
    · exact ⟨h.1.1, h.1.2.plain⟩
    · exact fun _ ↦ Scalar.noConfusion
    · trivial
  | _ => exact h

/-- A list that is compared by its key is not compared with a boolean taken from a table. -/
theorem Meets.ne_flag {column : ColumnType} {v : Literal} (h : Meets ⟨column, some v⟩ b) :
    ∀ items, v = .list items → ∀ t, b ≠ .flag t := by
  rintro items rfl
  exact h

theorem key?_eq_some_iff {k : Scalar.Key} :
    cell.key? = some k ↔ ∃ a, cell.value? = some (.scalar a) ∧ a.key = k := by
  rw [key?]
  rcases cell.value? with _ | (a | items | entries) <;> simp [Value.key?]

/-- Neither a list nor a dictionary equals a scalar, except a list a boolean taken from a table. -/
theorem equalValues_scalar {v : Literal} (hv : ¬ v.IsScalar)
    (hb : ∀ items, v = .list items → ∀ t, b ≠ .flag t) :
    v.equalValues (.scalar b) = .ok false := by
  cases v with
  | scalar a => exact absurd ⟨a, rfl⟩ hv
  | dict entries => rw [Literal.equalValues, Literal.equal?] <;> simp
  | list items =>
    cases b with
    | flag t => exact absurd rfl (hb items rfl t)
    | _ => rw [Literal.equalValues, Literal.equal?] <;> simp

/-- **A cell equals a scalar exactly when they have one key.** -/
theorem equals_scalar (h : cell.Decides b) :
    cell.equals (.scalar b) = .ok (some (decide (cell.key? = some b.key))) := by
  obtain ⟨hmeets, htext⟩ := h
  obtain ⟨column, value?⟩ := cell
  rw [equals]
  rcases value? with _ | (a | items | entries)
  · rfl
  · obtain ⟨ha, hcol⟩ := hmeets
    have hkey : (⟨column, some (.scalar a)⟩ : Cell).key? = some b.key ↔ a.key = b.key := by
      simp [key?, Value.key?]
    dsimp only
    rw [decide_eq_decide.2 hkey]
    split
    · rename_i hmiss
      have hne : a.key ≠ b.key := fun hk ↦ ha ((Scalar.isMissing_congr hk).2 hmiss)
      rw [decide_eq_false hne]
      cases column with
      | text => exact absurd hmiss (htext rfl)
      | _ => rfl
    · rename_i hmiss
      rw [ColumnType.equals_scalar hcol hmiss]
      rfl
  all_goals
    dsimp only
    split
    · rename_i hmiss
      cases column with
      | text => exact absurd hmiss (htext rfl)
      | _ => rfl
    · rw [ColumnType.equals, equalValues_scalar (by rintro ⟨a, ⟨⟩⟩) hmeets.ne_flag]
      · rfl
      · simp

/-- **A cell is a member of a set exactly when a scalar there has its key.** -/
theorem isIn_eq {vs : Distinct Scalar} (h : ∀ b ∈ vs.toList, cell.Meets b) :
    cell.isIn vs = true ↔ vs.HasKey cell.key? := by
  obtain ⟨column, value?⟩ := cell
  rw [isIn]
  rcases value? with _ | (a | items | entries)
  · exact iff_of_false Bool.false_ne_true Distinct.not_hasKey_none
  · refine (ColumnType.contains_scalar fun b hb ↦ (h b hb).2).trans ?_
    rw [show key? ⟨column, some (.scalar a)⟩ = some a.key from rfl, Distinct.hasKey_some]
    simp only [eq_comm]
  · exact iff_of_false Bool.false_ne_true Distinct.not_hasKey_none
  · exact iff_of_false Bool.false_ne_true Distinct.not_hasKey_none

/-! ### Comparisons of a single cell -/

theorem equals_scalar_toColumn (b : Scalar) : cell.toColumn.equals (.scalar b) =
    cell.equals (.scalar b) >>= fun verdict ↦ .ok [verdict] :=
  mapM_singleton _ cell

theorem compare_eq_scalar : cell.compare .eq (.scalar b) =
    cell.equals (.scalar b) >>= fun verdict ↦ .ok (verdict.getD false) := by
  rw [compare, Column.compare, equals_scalar_toColumn]
  cases cell.equals (.scalar b) with
  | error e => rfl
  | ok verdict => exact congrArg Except.ok (Bool.and_true _)

theorem compare_ne_scalar : cell.compare .ne (.scalar b) =
    cell.equals (.scalar b) >>= fun verdict ↦ .ok ((verdict.map (!·)).getD false) := by
  rw [compare, Column.compare, equals_scalar_toColumn]
  cases cell.equals (.scalar b) with
  | error e => rfl
  | ok verdict => exact congrArg Except.ok (Bool.and_true _)

theorem orders_toColumn (op : Comparison) : cell.toColumn.orders op (.scalar b) =
    cell.orders op (.scalar b) >>= fun verdict ↦ .ok [verdict] := by
  obtain ⟨column, value?⟩ := cell
  cases value? with
  | none => rfl
  | some v =>
    rw [Column.orders, if_neg (by simp [toColumn, Column.present])]
    exact mapM_singleton _ _

theorem compare_order_scalar {op : Comparison} (heq : op ≠ .eq) (hne : op ≠ .ne) :
    cell.compare op (.scalar b) = cell.orders op (.scalar b) >>= Verdict.decided := by
  have horder : cell.toColumn.compare op (.scalar b) =
      cell.toColumn.orders op (.scalar b) >>= fun vs ↦ vs.mapM Verdict.decided := by
    cases op with
    | eq => exact absurd rfl heq
    | ne => exact absurd rfl hne
    | _ => rfl
  rw [compare, horder, orders_toColumn]
  cases cell.orders op (.scalar b) with
  | error e => rfl
  | ok verdict => cases verdict <;> simp [bind, Except.bind, pure, Except.pure, Verdict.decided]

theorem between_scalar {l h : Scalar} {li hi : Bool} :
    cell.between (.scalar l) (.scalar h) li hi =
      cell.orders (if li then .ge else .gt) (.scalar l) >>= fun above ↦
        cell.orders (if hi then .le else .lt) (.scalar h) >>= fun below ↦
          (above.and below).decided := by
  rw [between, Column.between, orders_toColumn, orders_toColumn]
  cases cell.orders (if li then .ge else .gt) (.scalar l) with
  | error e => rfl
  | ok above =>
    cases cell.orders (if hi then .le else .lt) (.scalar h) with
    | error e => rfl
    | ok below =>
      cases hv : above.and below <;>
        simp [bind, Except.bind, pure, Except.pure, Verdict.decided, hv]

theorem compare_eq (h : cell.Decides b) :
    cell.compare .eq (.scalar b) = .ok (decide (cell.key? = some b.key)) := by
  rw [compare_eq_scalar, equals_scalar h]
  rfl

theorem compare_ne (h : cell.Decides b) :
    cell.compare .ne (.scalar b) = .ok (decide (cell.key? ≠ some b.key)) := by
  rw [compare_ne_scalar, equals_scalar h]
  simp [bind, Except.bind]

/-! ### Empty cells -/

/-- An empty cell equals nothing. -/
theorem equals_of_missing {c : Column} {x : Literal} {verdicts : List Verdict}
    (hc : c.values = [none]) (h : c.equals x = .ok verdicts) : verdicts = [some false] := by
  cases x with
  | scalar b =>
    rw [Column.equals, Column.cells, hc] at h
    exact (Except.ok.inj h).symm
  | dict entries =>
    obtain ⟨_, -, h⟩ := bind_eq_ok.1 h
    rw [Column.cells, hc] at h
    exact (Except.ok.inj h).symm
  | list items =>
    obtain ⟨stored, hstored, h⟩ := bind_eq_ok.1 h
    rw [Column.itemsFor, hc] at hstored
    split at hstored
    · rename_i hlength
      cases hstored
      have hcells : (c.facing items).unlabelled.values = [none] := by
        rw [← hc, Column.unlabelled, Column.facing]
        split <;> split <;> rfl
      match items, hlength with
      | [y], _ =>
        rw [Column.cells, hcells] at h
        exact (Except.ok.inj h).symm
    · cases hstored

/-- No order holds of an empty cell. -/
theorem orders_of_missing {c : Column} {op : Comparison} {x : Literal} (hc : c.values = [none]) :
    c.orders op x = .ok [some false] := by
  rw [Column.orders.eq_def, if_pos (by rw [Column.present, hc]; rfl), hc]
  rfl

/-- An empty cell differs from everything, and no other comparison holds of it. -/
theorem compare_of_missing {op : Comparison} {x : Literal} {r : Bool} (hcell : cell.value? = none)
    (h : cell.compare op x = .ok r) : r = (op == .ne) := by
  have hc : cell.toColumn.values = [none] := by rw [toColumn, hcell]
  obtain ⟨bs, hbs, h⟩ := bind_eq_ok.1 h
  rw [← Except.ok.inj h]
  cases op with
  | eq | ne =>
    obtain ⟨verdicts, hv, hbs⟩ := bind_eq_ok.1 hbs
    rw [equals_of_missing hc hv] at hbs
    rw [← Except.ok.inj hbs]
    rfl
  | _ =>
    obtain ⟨verdicts, hv, hbs⟩ := bind_eq_ok.1 hbs
    cases (orders_of_missing hc).symm.trans hv
    rw [← Except.ok.inj hbs]
    rfl

/-- An empty cell lies nowhere. -/
theorem between_of_missing {l u : Literal} {li ui : Bool} (hcell : cell.value? = none) :
    cell.between l u li ui = .ok false := by
  have hc : cell.toColumn.values = [none] := by rw [toColumn, hcell]
  rw [between, Column.between, orders_of_missing hc, orders_of_missing hc]
  rfl

/-! ### The form of a literal does not matter -/

/-- Where a cell is ordered, the order does not see in which form a number is written. -/
theorem orders_congr {op : Comparison} {b' : Scalar} {v v' : Verdict} (h : cell.Meets b)
    (h' : cell.Meets b') (hkey : b.key = b'.key) (hv : cell.orders op (.scalar b) = .ok v)
    (hv' : cell.orders op (.scalar b') = .ok v') : v = v' := by
  by_cases hmiss : b.IsMissing
  · obtain rfl := Scalar.eq_of_isMissing hmiss hkey
    exact Except.ok.inj (hv.symm.trans hv')
  have hmiss' : ¬ b'.IsMissing := fun hm ↦ hmiss ((Scalar.isMissing_congr hkey).2 hm)
  obtain ⟨column, value?⟩ := cell
  rcases value? with _ | (a | items | entries)
  · cases hv
    cases hv'
    rfl
  · -- both orders are those of the keys
    have hordered : ∀ {c : Scalar} {w : Verdict}, Meets ⟨column, some (.scalar a)⟩ c →
        ¬ c.IsMissing → column.orders op (.scalar a) (.scalar c) = .ok w →
        w = some (Scalar.Key.orders op a.key c.key) := by
      intro c w hc hcm hw
      rw [ColumnType.orders_scalar (ColumnType.not_labels_of_orders hw) hcm] at hw
      obtain ⟨r, hr, hw⟩ := bind_eq_ok.1 hw
      have hkeys := ColumnType.key_operands hc.2
      rw [← hkeys.1, ← hkeys.2, ← Scalar.orders_eq hr]
      exact (Except.ok.inj hw).symm
    rw [hordered h hmiss hv, hordered h' hmiss' hv', hkey]
  · have hv' : column.orders op (.list items) (.scalar b) = .ok v := hv
    obtain ⟨a, ha⟩ := ColumnType.isScalar_of_orders hmiss h.ne_flag hv'
    cases ha
  · have hv' : column.orders op (.dict entries) (.scalar b) = .ok v := hv
    obtain ⟨a, ha⟩ := ColumnType.isScalar_of_orders hmiss h.ne_flag hv'
    cases ha

theorem compare_congr {op : Comparison} {b' : Scalar} {r r' : Bool} (h : cell.Meets b)
    (h' : cell.Meets b') (hkey : b.key = b'.key) (hr : cell.compare op (.scalar b) = .ok r)
    (hr' : cell.compare op (.scalar b') = .ok r') : r = r' := by
  by_cases hmiss : b.IsMissing
  · obtain rfl := Scalar.eq_of_isMissing hmiss hkey
    exact Except.ok.inj (hr.symm.trans hr')
  have hd : cell.Decides b := ⟨h, fun _ ↦ hmiss⟩
  have hd' : cell.Decides b' := ⟨h', fun _ hm ↦ hmiss ((Scalar.isMissing_congr hkey).2 hm)⟩
  by_cases heq : op = .eq
  · subst heq
    rw [compare_eq hd, hkey, ← compare_eq hd', hr'] at hr
    exact (Except.ok.inj hr).symm
  by_cases hne : op = .ne
  · subst hne
    rw [compare_ne hd, hkey, ← compare_ne hd', hr'] at hr
    exact (Except.ok.inj hr).symm
  rw [compare_order_scalar heq hne] at hr hr'
  obtain ⟨v, hv, hr⟩ := bind_eq_ok.1 hr
  obtain ⟨v', hv', hr'⟩ := bind_eq_ok.1 hr'
  rw [orders_congr h h' hkey hv hv', hr'] at hr
  exact (Except.ok.inj hr).symm

theorem between_congr {l l' u u' : Scalar} {li ui r r' : Bool} (hl : cell.Meets l)
    (hl' : cell.Meets l') (hu : cell.Meets u) (hu' : cell.Meets u') (hlkey : l.key = l'.key)
    (hukey : u.key = u'.key) (hr : cell.between (.scalar l) (.scalar u) li ui = .ok r)
    (hr' : cell.between (.scalar l') (.scalar u') li ui = .ok r') : r = r' := by
  rw [between_scalar] at hr hr'
  obtain ⟨v, hv, hr⟩ := bind_eq_ok.1 hr
  obtain ⟨w, hw, hr⟩ := bind_eq_ok.1 hr
  obtain ⟨v', hv', hr'⟩ := bind_eq_ok.1 hr'
  obtain ⟨w', hw', hr'⟩ := bind_eq_ok.1 hr'
  rw [orders_congr hl hl' hlkey hv hv', orders_congr hu hu' hukey hw hw', hr'] at hr
  exact (Except.ok.inj hr).symm

/-! ### Numbers -/

/-- The cell is empty or holds a number, or a boolean that counts as one, which is ordered: it is no
label, and if it is one of a column of whole numbers, it may be rounded. -/
def IsNumeric (cell : Cell) : Prop :=
  match cell.value? with
  | none => True
  | some (.scalar a) =>
    a.number?.isSome = true ∧ (∀ type all, cell.column ≠ .labels type all) ∧
      (cell.column = .int → a.IsExact)
  | some _ => False

/-- A numeric cell is missing or holds an exact number. -/
theorem IsNumeric.cases (h : cell.IsNumeric) : cell.value? = none ∨
    ∃ a x, cell.value? = some (.scalar a) ∧ a.number? = some x ∧
      (∀ type all, cell.column ≠ .labels type all) ∧ (cell.column = .int → a.IsExact) := by
  rw [IsNumeric] at h
  split at h
  · rename_i hnone
    exact .inl hnone
  · rename_i a ha
    obtain ⟨x, hx⟩ := Option.isSome_iff_exists.1 h.1
    exact .inr ⟨a, x, ha, hx, h.2⟩
  · exact h.elim

theorem meets_of_column {column : ColumnType} (hlabels : ∀ type all, column ≠ .labels type all)
    (hint : column = .int → a.IsExact) (hb : b.IsExact) : column.Meets a b := by
  cases column with
  | int => exact ⟨hb, fun _ _ ↦ hint rfl⟩
  | double => exact hb
  | labels type all => exact absurd rfl (hlabels type all)
  | _ => trivial

theorem IsNumeric.meets (h : cell.IsNumeric) (hb : b.IsExact) : cell.Meets b := by
  rcases h.cases with hnone | ⟨a, x, ha, hx, hlabels, hint⟩
  · exact meets_of_missing hnone
  · rw [Meets, ha]
    refine ⟨?_, meets_of_column hlabels hint hb⟩
    intro hm
    rcases (Scalar.isMissing_iff a).1 hm with rfl | rfl <;> cases hx

/-- A number in a cell is ordered with other numbers as the number that it is. -/
theorem IsNumeric.orders_number {op : Comparison} {x y : Extended} (h : cell.IsNumeric)
    (ha : cell.value? = some (.scalar a)) (hx : a.number? = some x) (hy : b.number? = some y)
    (hb : b.IsExact) : cell.orders op (.scalar b) = .ok (some (op.accepts (x.compare y))) := by
  obtain ⟨column, value?⟩ := cell
  rcases h.cases with hnone | ⟨a', x', ha', -, hlabels, hint⟩
  · cases hnone.symm.trans ha
  cases ha
  cases ha'
  have hmiss : ¬ b.IsMissing := fun hm ↦ by
    rcases (Scalar.isMissing_iff b).1 hm with rfl | rfl <;> cases hy
  have hkeys := ColumnType.key_operands (meets_of_column hlabels hint hb)
  rw [Scalar.number?_eq_some, ← hkeys.1, ← Scalar.number?_eq_some] at hx
  rw [Scalar.number?_eq_some, ← hkeys.2, ← Scalar.number?_eq_some] at hy
  refine (ColumnType.orders_scalar hlabels hmiss).trans ?_
  rw [Scalar.orders_number hx hy]
  rfl

end Cell

end RuleCoverage
