import RuleCoverage.Proofs.NormalForm.RowMeaning
import RuleCoverage.Proofs.NormalForm.Totality
import RuleCoverage.Proofs.NormalForm.Uniform

/-!
# Whole numbers of any size

Literals are read as doubles.  If a predicate compares numeric attributes with whole numbers that
are doubles, then simplification returns, and what it returns has the same truth value on every row
of whole numbers, which may be of any size (`Predicate.exists_holds_simplify`).  A literal that is
no double is taken for the double next to it (`Predicate.simplify_loses_whole`).

What other attributes a schema has is of no importance: simplification is the same if they are left
out of it, and then the row conforms to it once the cells of other attributes are left out too.
-/

set_option autoImplicit false

namespace RuleCoverage

/-! ## Whole numbers -/

/-- The row of one whole number, out of a column that holds values as they are. -/
def Row.ofWhole (a : String) (n : Int) : Row :=
  ⟨[(.text a, ⟨.mixed, some (.int n)⟩)], fun _ ↦ false, .text⟩

/-- The scalar is a whole number, and a double is equal to it. -/
def Scalar.IsWholeDouble (s : Scalar) : Prop :=
  ∃ n x, s = .int n ∧ Double.ofInt? n = some x ∧ (Scalar.double x).key = (Scalar.int n).key

theorem Scalar.IsWholeDouble.inRange {s : Scalar} (h : s.IsWholeDouble) : s.InRange := by
  obtain ⟨n, x, rfl, hx, -⟩ := h
  rintro _ ⟨⟩
  exact ⟨x, hx⟩

theorem point?_of_whole {n : Int} {x : Double} (h : Double.ofInt? n = some x) :
    (Literal.scalar (.int n)).point? = some x := by
  simp [Literal.point?, Literal.kind?, Scalar.kind?, Literal.toDouble, Scalar.toDouble,
    doubleOfInt, h]

/-- The cell holds nothing or a whole number, which is compared as it is. -/
def Cell.IsWhole (cell : Cell) : Prop :=
  cell.column = .mixed ∧ ∀ v, cell.value? = some v → ∃ n, v = .scalar (.int n)

theorem Cell.IsWhole.isNumeric {cell : Cell} (h : cell.IsWhole) : cell.IsNumeric := by
  obtain ⟨column, value?⟩ := cell
  obtain ⟨rfl, hvalue⟩ := h
  cases value? with
  | none => trivial
  | some v =>
    obtain ⟨n, rfl⟩ := hvalue v rfl
    exact ⟨rfl, fun _ _ ↦ ColumnType.noConfusion, ColumnType.noConfusion⟩

namespace Predicate

variable {row : Row} {schema? : Option Schema} {A : String → Prop} {p q : Predicate}

/-- The atom compares one of the attributes with nothing but whole numbers that are doubles. -/
abbrev ComparesWhole (A : String → Prop) : Predicate → Prop := Asks A Scalar.IsWholeDouble

namespace ComparesWhole

variable {atom : Predicate} (h : atom.ComparesWhole A)
include h

/-- The row knows the atom if its cell is whole. -/
theorem knows (hcell : ∀ a, A a → (row.cellNamed a).IsWhole) : row.Knows schema? atom := by
  obtain ⟨a, hattr, ha⟩ := h.about
  have hnumeric := (hcell a ha).isNumeric
  have hexact : ∀ s ∈ atom.scalars, s.IsExact ∧ ∃ x, (Literal.scalar s).point? = some x := by
    intro s hs
    obtain ⟨n, x, rfl, hx, hkey⟩ := h.of_mem_scalars hs
    refine ⟨?_, x, point?_of_whole hx⟩
    rw [Scalar.IsExact, Scalar.widened, hx]
    exact hkey
  have hcompares : ∀ s ∈ atom.scalars, row.Compares schema? a s := by
    intro s hs
    obtain ⟨hs, x, hx⟩ := hexact s hs
    exact ⟨hnumeric.decides hs hx, fun _ ↦ hs, fun _ _ ↦ hnumeric⟩
  refine ⟨?_, Row.takes_of_compares hattr hcompares⟩
  have hmember := h.isMember
  cases atom with
  | compare b op v =>
    cases hattr
    obtain ⟨-, s, rfl⟩ := hmember
    obtain ⟨hs, x, hx⟩ := hexact s (by simp)
    obtain ⟨r, hr, -⟩ := hnumeric.compare_iff op hs hx
    exact ⟨r, by rw [holds, Row.cell_text]; exact hr⟩
  | between b l u li ui =>
    cases hattr
    obtain ⟨-, ⟨s, rfl⟩, t, rfl⟩ := hmember
    obtain ⟨hs, x, hx⟩ := hexact s (by simp)
    obtain ⟨ht, y, hy⟩ := hexact t (by simp)
    obtain ⟨r, hr, -⟩ := hnumeric.between_iff li ui hs hx ht hy
    exact ⟨r, by rw [holds, Row.cell_text]; exact hr⟩
  | isIn b vs | isNull b =>
    cases hattr
    exact ⟨_, by rw [holds, Row.cell_text]; rfl⟩
  | _ => cases hattr

end ComparesWhole

/-! ## Simplification -/

/-- The attributes of a predicate are numeric, whether a schema says so or its literals do. -/
def NumericOnly (p : Predicate) (schema? : Option Schema) : Prop :=
  ∃ ctx, Interpretation.of p schema? = .ok ctx ∧ ∀ a, p.Names a → ctx.kind? a = some .numeric

/-- A schema of nothing but numeric attributes is as good as one with other attributes. -/
theorem simplify_ofNumbers {schema : Schema} {attrs : List String} {effort : Effort}
    (hschema : ∀ a ∈ attrs, schema.kind? a = some .numeric)
    (hp : p.AllAtoms (About fun a ↦ a ∈ attrs)) :
    p.simplify (some schema) effort = p.simplify (some (.ofKind .numeric attrs)) effort := by
  have hagree : schema.interpretation.Agree (Schema.ofKind .numeric attrs).interpretation
      fun a ↦ a ∈ attrs :=
    Interpretation.agree_of_kind? (.inl rfl) hschema fun _ ha ↦ Schema.kind?_ofKind_of_mem ha
  refine settle_congr (P := fun x ↦ x.AllAtoms (About fun a ↦ a ∈ attrs)) (fun x hx ↦ ?_)
    (fun x y hx hy ↦ about_simplifyOnce hx hy) hp
  exact simplifyOnce_congr hagree rfl rfl (hx.imp fun _ h ↦ h.within)

/-- **Simplification is exact on whole numbers of any size**, as long as the literals are whole
numbers that are doubles: it returns, and the result has the truth value of the given predicate on
every row of whole numbers. -/
theorem exists_holds_simplify (effort : Effort) (hkinds : p.NumericOnly schema?)
    (hp : p.AllAtoms (ComparesWhole fun a ↦ (row.cellNamed a).IsWhole)) :
    ∃ q r, p.simplify schema? effort = .ok q ∧ p.holds row = .ok r ∧ q.holds row = .ok r := by
  let attrs := p.attributes.toList
  let row' := Row.ofCells attrs row.cellNamed row.passes
  obtain ⟨ctx, hctx, hnumeric⟩ := hkinds
  have habout : p.AllAtoms (About fun a ↦ a ∈ attrs) :=
    (About.names (hp.imp fun _ h ↦ h.about)).imp fun _ ↦ .imp fun _ h ↦ ⟨h.1, mem_attributes.2 h.2⟩
  have hwhole : ∀ a ∈ attrs, (row.cellNamed a).IsWhole :=
    fun a ha ↦ About.of_names (hp.imp fun _ h ↦ h.about) (mem_attributes.1 ha)
  have hcells : ∀ a ∈ attrs, row'.cellNamed a = row.cellNamed a :=
    fun a ha ↦ (Row.cellNamed_ofCells ..).trans (if_pos ha)
  have hsame : ∀ {x : Predicate}, x.AllAtoms (About fun a ↦ a ∈ attrs) →
      x.holds row' = x.holds row :=
    fun hx ↦ Row.holds_eq_of_cells (hx.imp fun atom h ↦ h.imp fun a ha ↦ ⟨ha.1, hcells a ha.2⟩)
  have hreadable : p.AllAtoms (Readable schema?) :=
    hp.imp fun _ h ↦ h.readable fun _ ↦ Scalar.IsWholeDouble.inRange
  obtain ⟨q, hq⟩ := exists_simplify effort hreadable
  have hknows : ∀ schema?, p.AllAtoms (row'.Knows schema?) := by
    intro schema?
    rw [allAtoms_iff] at hp habout ⊢
    intro atom hatom hisAtom
    have hcompares : atom.ComparesWhole fun a ↦ a ∈ attrs :=
      ⟨habout atom hatom hisAtom, (hp atom hatom hisAtom).literals⟩
    exact hcompares.knows fun a ha ↦ (hcells a ha).symm ▸ hwhole a ha
  obtain ⟨r, hr, -⟩ := Row.holds_iff_isTrue ((hknows none).imp fun _ h ↦ h.1)
  refine ⟨q, r, hq, hsame habout ▸ hr, hsame (about_simplify habout hq) ▸ ?_⟩
  cases schema? with
  | none =>
    exact holds_simplify (fun _ h ↦ by cases h) ((hknows none).imp fun _ h ↦ h.2) hq hr
  | some schema =>
    cases hctx
    have hschema : ∀ a ∈ attrs, schema.kind? a = some .numeric :=
      fun a ha ↦ hnumeric a (mem_attributes.1 ha)
    rw [simplify_ofNumbers hschema habout] at hq
    refine holds_simplify ?_ ((hknows _).imp fun _ h ↦ h.2) hq hr
    rintro _ ⟨⟩ a
    rw [Schema.kind?_ofKind]
    by_cases ha : a ∈ attrs
    · rw [if_pos ha, hcells a ha]
      exact (hwhole a ha).isNumeric
    · rw [if_neg ha]
      exact congrArg Cell.value? ((Row.cellNamed_ofCells ..).trans (if_neg ha))

theorem isWholeDouble_near {n : Int} (hn : n = 2 ^ 53 ∨ n = 2 ^ 53 + 2) :
    (Scalar.int n).IsWholeDouble := by
  obtain ⟨x, hx⟩ : ∃ x, Double.ofInt? n = some x := by
    rw [← Option.isSome_iff_exists]
    rcases hn with rfl | rfl <;> decide +kernel
  refine ⟨n, x, rfl, hx, ?_⟩
  have hexact : (Scalar.int n).IsExact := by
    rw [Scalar.IsExact]
    rcases hn with rfl | rfl <;> decide +kernel
  rwa [Scalar.IsExact, Scalar.widened, hx] at hexact

/-- A whole number that is no double is told from the doubles beside it. -/
theorem holds_simplify_between_doubles : ∃ q,
    (and (compare (.text "x") .ge (.int (2 ^ 53)))
      (compare (.text "x") .lt (.int (2 ^ 53 + 2)))).simplify none {} = .ok q ∧
      q.holds (.ofWhole "x" (2 ^ 53 + 1)) = .ok true := by
  let p := and (compare (.text "x") .ge (.int (2 ^ 53)))
    (compare (.text "x") .lt (.int (2 ^ 53 + 2)))
  have hkinds : p.NumericOnly none := by
    refine ⟨⟨none, [("x", some .numeric)]⟩, rfl, fun a ha ↦ ?_⟩
    have hname : a = "x" := by
      rw [← mem_attributes] at ha
      exact List.mem_singleton.1 ha
    rw [hname]
    rfl
  have hwhole : ((Row.ofWhole "x" (2 ^ 53 + 1)).cellNamed "x").IsWhole :=
    ⟨rfl, fun v hv ↦ ⟨_, (Option.some.inj hv).symm⟩⟩
  have hatom : ∀ op n, n = 2 ^ 53 ∨ n = 2 ^ 53 + 2 → (compare (.text "x") op (.int n)).ComparesWhole
      fun a ↦ ((Row.ofWhole "x" (2 ^ 53 + 1)).cellNamed a).IsWhole := by
    refine fun op n hn ↦ ⟨⟨"x", rfl, hwhole⟩, ?_⟩
    rintro _ ⟨⟩ v hv
    exact ⟨_, List.mem_singleton.1 hv, isWholeDouble_near hn⟩
  have hatoms : p.AllAtoms (ComparesWhole fun a ↦
      ((Row.ofWhole "x" (2 ^ 53 + 1)).cellNamed a).IsWhole) :=
    ⟨hatom _ _ (.inl rfl), hatom _ _ (.inr rfl)⟩
  obtain ⟨q, r, hq, hp, hr⟩ := exists_holds_simplify {} hkinds hatoms
  cases hp.symm.trans (show p.holds (.ofWhole "x" (2 ^ 53 + 1)) = .ok true from rfl)
  exact ⟨q, hq, hr⟩

/-- A literal that is no double is taken for the double next to it: no number is found that equals
`2 ^ 53 + 1` and is greater than `2 ^ 53`. -/
theorem simplify_loses_whole :
    (and (compare (.text "x") .eq (.int (2 ^ 53 + 1)))
        (compare (.text "x") .gt (.int (2 ^ 53)))).simplify none {} = .ok .never ∧
      (and (compare (.text "x") .eq (.int (2 ^ 53 + 1)))
        (compare (.text "x") .gt (.int (2 ^ 53)))).holds (.ofWhole "x" (2 ^ 53 + 1)) =
          .ok true := by
  refine ⟨eq_ok_never ?_, rfl⟩
  decide +kernel

end Predicate

end RuleCoverage
