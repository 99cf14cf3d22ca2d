import RuleCoverage.Proofs.NormalForm.Agreement
import RuleCoverage.Proofs.NormalForm.Assignments

/-!
# Attributes of one kind

A predicate on numbers only, or on texts only, is read as it would be against a schema that has the
attributes of the predicate, all of that kind, and no others (`Interpretation.agree_of_kind?`).  To
speak about its truth one needs no other cells of a row either (`Row.holds_eq_of_cells`).
-/

set_option autoImplicit false

namespace RuleCoverage

/-! ## Schemas -/

/-- The schema of some attributes of one kind. -/
def Schema.ofKind (k : Kind) (attrs : List String) : Schema :=
  ⟨attrs.map fun a ↦ (a, k), [], defaultName⟩

namespace Schema

variable {k : Kind} {attrs : List String} {a : String}

theorem kind?_ofKind (k : Kind) (attrs : List String) (a : String) :
    (ofKind k attrs).kind? a = if a ∈ attrs then some k else none := by
  rw [kind?, ofKind]
  dsimp only
  induction attrs with
  | nil => rfl
  | cons b attrs ih =>
    rw [List.map_cons, Dictionary.get?, ih]
    by_cases hba : b = a
    · simp [hba]
    · simp [hba, Ne.symm hba]

theorem kind?_ofKind_of_mem (ha : a ∈ attrs) : (ofKind k attrs).kind? a = some k :=
  (kind?_ofKind k attrs a).trans (if_pos ha)

theorem hasPlainCategories_ofKind (k : Kind) (attrs : List String) :
    (ofKind k attrs).HasPlainCategories :=
  fun _ s hs ↦ absurd hs (Distinct.not_mem_empty s)

end Schema

namespace Interpretation

variable {ctx ctx' : Interpretation} {a : String} {k : Kind}

/-- What numbers and texts may be is not for a schema to say. -/
theorem full?_unbounded (hk : k = .numeric ∨ k = .string) (h : ctx.kind? a = some k) :
    ctx.full? a = some (if k = .numeric then .numeric .full else .discrete (.full none)) := by
  rw [full?, h, Option.map_some]
  rcases hk with rfl | rfl
  · rfl
  · cases ctx.schema? <;> rfl

/-- **Interpretations that give some attributes one unbounded kind agree on them.** -/
theorem agree_of_kind? {A : String → Prop} (hk : k = .numeric ∨ k = .string)
    (h : ∀ a, A a → ctx.kind? a = some k) (h' : ∀ a, A a → ctx'.kind? a = some k) :
    ctx.Agree ctx' A where
  kind a ha := (h a ha).trans (h' a ha).symm
  full a ha := (full?_unbounded hk (h a ha)).trans (full?_unbounded hk (h' a ha)).symm
  missing a ha := by
    rw [Bool.eq_false_iff.2 (not_isMissing (h a ha)), Bool.eq_false_iff.2 (not_isMissing (h' a ha))]

end Interpretation

/-! ## Rows -/

namespace Row

variable {row row' : Row}

/-- The row that has a cell for each of some attributes. -/
def ofCells (attrs : List String) (cell : String → Cell) (passes : String → Bool) : Row :=
  ⟨attrs.map fun a ↦ (.text a, cell a), passes, .text⟩

theorem cellNamed_ofCells (attrs : List String) (cell : String → Cell) (passes : String → Bool)
    (a : String) :
    (ofCells attrs cell passes).cellNamed a = if a ∈ attrs then cell a else ⟨.mixed, none⟩ := by
  have hfind : (attrs.map fun a ↦ (Scalar.text a, cell a)).find?
      (fun e ↦ CommonType.text.finds e.1 (.text a)) =
        if a ∈ attrs then some (.text a, cell a) else none := by
    induction attrs with
    | nil => rfl
    | cons b attrs ih =>
      have hfinds : CommonType.text.finds (.text b) (.text a) = decide (b = a) := by
        rw [Bool.eq_iff_iff, decide_eq_true_iff]
        show (Scalar.text b == .text a) = true ↔ b = a
        rw [Scalar.beq_iff_key]
        exact Scalar.Key.text.injEq b a ▸ Iff.rfl
      rw [List.map_cons, List.find?_cons, hfinds]
      by_cases hba : b = a
      · simp [hba]
      · simp only [hba, decide_false, ih, List.mem_cons, Ne.symm hba, false_or]
  rw [cellNamed, ofCells]
  dsimp only
  rw [hfind]
  by_cases ha : a ∈ attrs
  · rw [if_pos ha, if_pos ha]
  · rw [if_neg ha, if_neg ha]

/-- A predicate on attributes that are the same in two rows has one truth value on both. -/
theorem holds_eq_of_cells {p : Predicate}
    (h : p.AllAtoms (Predicate.About fun a ↦ row'.cellNamed a = row.cellNamed a)) :
    p.holds row' = p.holds row := by
  have hcell : ∀ {attr : Literal}, (∃ a, some attr = some (.text a) ∧
      row'.cellNamed a = row.cellNamed a) → row'.cell attr = row.cell attr := by
    rintro _ ⟨a, ⟨⟩, ha⟩
    rw [cell_text, cell_text, ha]
  induction p with
  | always | never => rfl
  | and a b iha ihb | or a b iha ihb => rw [Predicate.holds, Predicate.holds, iha h.1, ihb h.2]
  | not a ih => rw [Predicate.holds, Predicate.holds, ih h]
  | compare attr op v | isIn attr vs | between attr l u li ui | isNull attr =>
    rw [Predicate.holds, Predicate.holds, hcell h]
  | bare | test =>
    obtain ⟨a, ha, -⟩ := h
    cases ha

end Row

end RuleCoverage
