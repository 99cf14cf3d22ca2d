import RuleCoverage.Proofs.Feature.ByValue
import RuleCoverage.Proofs.NormalForm.Meaning

/-!
# Cells that hold numbers

A numeric cell (`Cell.IsNumeric`) always has an answer when it is compared with exact numbers, and
it is the answer of the line: `Cell.IsNumeric.compare_iff`, `between_iff` and `isIn_iff` say so of
the three ways to compare.  A literal is exact if it is read as the number that it is.
-/

set_option autoImplicit false

namespace RuleCoverage

/-- A comparison accepts the order of two numbers if they stand in its relation. -/
theorem Comparison.accepts_compare (op : Comparison) (x y : Extended) :
    op.accepts (x.compare y) = true ↔ op.Rel x.toEReal y.toEReal := by
  rw [Extended.compare_eq]
  rcases lt_trichotomy x.toEReal y.toEReal with h | h | h
  · cases op <;> simp [accepts, Rel, h, h.le, h.ne, h.not_gt, h.not_ge]
  · cases op <;> simp [accepts, Rel, h]
  · cases op <;> simp [accepts, Rel, h, h.le, h.ne', h.not_gt, h.not_ge]

/-- The point that an exact number is read as is the number. -/
theorem Scalar.number?_of_point? {b : Scalar} {y : Double} (hb : b.IsExact)
    (h : (Literal.scalar b).point? = some y) : b.number? = some y.value := by
  rw [Literal.point?] at h
  split at h
  · rename_i hkind
    cases b with
    | int n =>
      simp only [Literal.toDouble, toDouble, doubleOfInt] at h
      cases hn : Double.ofInt? n with
      | none => simp [hn] at h
      | some x =>
        simp only [hn, Functor.map, Except.map, Option.some.injEq] at h
        subst h
        rw [IsExact, widened, hn] at hb
        exact number?_eq_some.2 hb.symm
    | double x =>
      cases h
      rfl
    | nan => cases h
    | _ => cases hkind
  · cases h

/-- Exact numbers have the keys of the points that they are read as. -/
theorem exists_key_iff_of_points {k : Option Scalar.Key} {bs : List Scalar} {ys : List Double}
    (hbs : ∀ b ∈ bs, b.IsExact) (hys : (bs.mapM fun b ↦ (Literal.scalar b).point?) = some ys) :
    (∃ b ∈ bs, some b.key = k) ↔ ∃ y ∈ ys, some (.number y.value) = k := by
  have hkey : ∀ {b y}, b ∈ bs → (Literal.scalar b).point? = some y → b.key = .number y.value :=
    fun hb hy ↦ Scalar.number?_eq_some.1 (Scalar.number?_of_point? (hbs _ hb) hy)
  constructor
  · rintro ⟨b, hb, rfl⟩
    obtain ⟨y, hy, hpoint⟩ := Literal.exists_mem_of_points hys b hb
    exact ⟨y, hy, congrArg some (hkey hb hpoint).symm⟩
  · rintro ⟨y, hy, rfl⟩
    obtain ⟨b, hb, hpoint⟩ := (Literal.mem_points_iff hys y).1 hy
    exact ⟨b, hb, congrArg some (hkey hb hpoint)⟩

namespace Cell

variable {cell : Cell} {b : Scalar} {y : Double}

/-- The number in the cell. -/
def number? (cell : Cell) : Option Extended :=
  match cell.value? with
  | some (.scalar a) => a.number?
  | _ => none

theorem number?_eq_some {x : Extended} :
    cell.number? = some x ↔ ∃ a, cell.value? = some (.scalar a) ∧ a.number? = some x := by
  rw [number?]
  rcases cell.value? with _ | (a | items | entries) <;> simp

theorem key?_eq_number {x : Extended} : cell.key? = some (.number x) ↔ cell.number? = some x := by
  simp only [key?_eq_some_iff, number?_eq_some, Scalar.number?_eq_some]

namespace IsNumeric

theorem number?_eq_none (h : cell.IsNumeric) : cell.number? = none ↔ cell.value? = none := by
  rcases h.cases with hnone | ⟨a, x, ha, hx, -⟩
  · simp [number?, hnone]
  · simp [number?, ha, hx]

theorem decides (h : cell.IsNumeric) (hb : b.IsExact) (hy : (Literal.scalar b).point? = some y) :
    cell.Decides b := by
  refine ⟨h.meets hb, ?_⟩
  intro _ hm
  rcases (Scalar.isMissing_iff b).1 hm with rfl | rfl <;> cases hy

/-- A numeric cell is ordered with a number as on the line. -/
theorem orders_iff (h : cell.IsNumeric) (op : Comparison) (hb : b.IsExact)
    (hy : (Literal.scalar b).point? = some y) : ∃ r, cell.orders op (.scalar b) = .ok (some r) ∧
      (r = true ↔ ∃ x, cell.number?.map Extended.toEReal = some x ∧ op.Rel x y.toEReal) := by
  rcases h.cases with hnone | ⟨a, x, ha, hx, -⟩
  · refine ⟨false, ?_, iff_of_false Bool.false_ne_true ?_⟩
    · rw [orders, hnone]
    · rw [h.number?_eq_none.2 hnone]
      simp
  · refine ⟨_, h.orders_number ha hx (Scalar.number?_of_point? hb hy) hb, ?_⟩
    rw [op.accepts_compare, number?_eq_some.2 ⟨a, ha, hx⟩]
    simp [Double.toEReal]

/-- A numeric cell has an answer to each comparison with a number: that of the line. -/
theorem compare_iff (h : cell.IsNumeric) (op : Comparison) (hb : b.IsExact)
    (hy : (Literal.scalar b).point? = some y) : ∃ r, cell.compare op (.scalar b) = .ok r ∧
      (r = true ↔ op.Holds (cell.number?.map Extended.toEReal) y.toEReal) := by
  have hkey : cell.key? = some b.key ↔ cell.number?.map Extended.toEReal = some y.toEReal := by
    rw [Scalar.number?_eq_some.1 (Scalar.number?_of_point? hb hy), key?_eq_number,
      Option.map_eq_some_iff]
    simp [Double.toEReal, Extended.toEReal_inj]
  by_cases heq : op = .eq
  · subst heq
    refine ⟨_, compare_eq (h.decides hb hy), ?_⟩
    rw [decide_eq_true_iff, Comparison.holds_eq, hkey]
  by_cases hne : op = .ne
  · subst hne
    refine ⟨_, compare_ne (h.decides hb hy), ?_⟩
    rw [decide_eq_true_iff, Comparison.holds_ne, ne_eq, hkey]
  · obtain ⟨r, hr, hiff⟩ := h.orders_iff op hb hy
    refine ⟨r, ?_, hiff.trans (Comparison.holds_iff hne).symm⟩
    rw [compare_order_scalar heq hne, hr]
    rfl

theorem between_iff {l u : Scalar} {x y : Double} (h : cell.IsNumeric) (li ui : Bool)
    (hl : l.IsExact) (hx : (Literal.scalar l).point? = some x) (hu : u.IsExact)
    (hy : (Literal.scalar u).point? = some y) :
    ∃ r, cell.between (.scalar l) (.scalar u) li ui = .ok r ∧
      (r = true ↔ ∃ z, cell.number?.map Extended.toEReal = some z ∧
        (x.toEReal < z ∨ li = true ∧ x.toEReal = z) ∧
        (z < y.toEReal ∨ ui = true ∧ z = y.toEReal)) := by
  obtain ⟨r, hr, hlow⟩ := h.orders_iff (if li then .ge else .gt) hl hx
  obtain ⟨t, ht, hhigh⟩ := h.orders_iff (if ui then .le else .lt) hu hy
  refine ⟨r && t, ?_, ?_⟩
  · rw [between_scalar, hr, ht]
    rfl
  · have hrel : ∀ z : EReal, ((if li then .ge else .gt : Comparison).Rel z x.toEReal ↔
        x.toEReal < z ∨ li = true ∧ x.toEReal = z) ∧
        ((if ui then .le else .lt : Comparison).Rel z y.toEReal ↔
          z < y.toEReal ∨ ui = true ∧ z = y.toEReal) := by
      intro z
      cases li <;> cases ui <;> simp [Comparison.Rel, le_iff_lt_or_eq]
    rw [Bool.and_eq_true, hlow, hhigh]
    constructor
    · rintro ⟨⟨z, hz, hlow⟩, z', hz', hhigh⟩
      cases hz.symm.trans hz'
      exact ⟨z, hz, (hrel z).1.1 hlow, (hrel z).2.1 hhigh⟩
    · rintro ⟨z, hz, hlow, hhigh⟩
      exact ⟨⟨z, hz, (hrel z).1.2 hlow⟩, z, hz, (hrel z).2.2 hhigh⟩

/-- A numeric cell is a member of a set of numbers if it is one of the points that they are. -/
theorem isIn_iff {vs : Distinct Scalar} {ys : List Double} (h : cell.IsNumeric)
    (hvs : ∀ b ∈ vs.toList, b.IsExact)
    (hys : (vs.toList.mapM fun b ↦ (Literal.scalar b).point?) = some ys) :
    cell.isIn vs = true ↔ ∃ y ∈ ys, cell.number?.map Extended.toEReal = some y.toEReal := by
  have hpoint : ∀ y : Double, cell.number?.map Extended.toEReal = some y.toEReal ↔
      some (.number y.value) = cell.key? := by
    intro y
    rw [@eq_comm _ _ cell.key?, key?_eq_number, Option.map_eq_some_iff]
    simp [Double.toEReal, Extended.toEReal_inj]
  rw [isIn_eq fun b hb ↦ h.meets (hvs b hb), Distinct.HasKey]
  simp only [hpoint]
  exact exists_key_iff_of_points hvs hys

end IsNumeric

end Cell

end RuleCoverage
