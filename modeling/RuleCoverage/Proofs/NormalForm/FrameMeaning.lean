import RuleCoverage.Proofs.Feature.FrameRows
import RuleCoverage.Proofs.NormalForm.Assignments
import RuleCoverage.Proofs.NormalForm.Simplification

/-!
# The rows of a table as readings

A predicate has a mask on a table all at once or not at all, so the rows of a table know the same
atoms: those that have a mask and are compared by value in every cell (`Frame.Knows`).  A row of the
table is a reading of a schema that the rows conform to, and what every pass of a simplification
keeps on each row it keeps on the table (`Predicate.mask_simplify`).

Unlike a row by itself, a row of a table knows atoms with lists too.  They are never interpreted,
but on an attribute without a column a list is as good as any literal.
-/

set_option autoImplicit false

namespace RuleCoverage

/-- An atom that has a value set has no lists and no dictionaries in it. -/
theorem Predicate.isMember_of_values {ctx : Interpretation} {atom : Predicate} {vs : ValueSet}
    (h : ctx.values? atom = .ok (some vs)) : atom.IsMember := by
  obtain ⟨a, -, hn, -, -⟩ := Interpretation.values?_eq_some h
  obtain ⟨k, m, -, hm, -⟩ := Interpretation.exists_meaning?_of_values hn h
  have hattr := Row.attr?_of_named? hn
  cases means_iff.2 hm with
  | isNull b => exact ⟨_, Option.some.inj hattr⟩
  | number _ h =>
    cases h with
    | compare hv => exact ⟨⟨_, Option.some.inj hattr⟩, Literal.isScalar_of_point? hv⟩
    | isIn => exact ⟨_, Option.some.inj hattr⟩
    | between hl hu =>
      exact ⟨⟨_, Option.some.inj hattr⟩, Literal.isScalar_of_point? hl,
        Literal.isScalar_of_point? hu⟩
  | key _ h =>
    cases h with
    | eq | ne => exact ⟨⟨_, Option.some.inj hattr⟩, _, rfl⟩
    | isIn => exact ⟨_, Option.some.inj hattr⟩

theorem Predicate.isMember_compare (a : String) (op : Comparison) (s : Scalar) :
    (compare (.text a) op (.scalar s)).IsMember := ⟨⟨_, rfl⟩, _, rfl⟩

theorem Predicate.isMember_isIn (a : String) (vs : Distinct Scalar) :
    (isIn (.text a) vs).IsMember := ⟨_, rfl⟩

/-- A text is found by nothing but itself. -/
theorem CommonType.eq_text_of_finds {type : CommonType} {a : String} {s : Scalar}
    (h : type.finds (.text a) s = true) : s = .text a := by
  have hkey : ∀ {t : Scalar}, (Scalar.text a == t) = true → t = .text a := by
    intro t ht
    rw [Scalar.beq_iff_key] at ht
    cases t <;> first | cases ht; rfl | cases ht
  cases type with
  | mixed => exact hkey h
  | int | bool => exact hkey (Bool.and_eq_true_iff.1 h).2
  | double =>
    have hwide := hkey (Bool.and_eq_true_iff.1 h).2
    cases s with
    | int n =>
      rw [Scalar.widened] at hwide
      split at hwide <;> cases hwide
    | _ => exact hwide
  | text =>
    have hstored := hkey h
    cases s with
    | null => cases hstored
    | _ => exact hstored

namespace Frame

variable {frame : Frame} {tests : RowTests} {schema : Schema} {atom : Predicate} {a : String}

/-- What a row has for an attribute. -/
def cellAt (frame : Frame) (a : String) (i : Nat) : Cell :=
  (frame.row (fun _ _ ↦ false) i).cellNamed a

/-- The rows of the table conform to the schema. -/
structure Suits (frame : Frame) (schema : Schema) : Prop where
  rectangular : frame.IsRectangular
  named : ∀ e ∈ frame.columns, ∃ a, e.1 = .text a
  conforms : ∀ i, (frame.row (fun _ _ ↦ false) i).ConformsTo schema
  labelled : ∀ {a}, schema.kind? a = some .categorical → ∀ i, (frame.cellAt a i).column ≠ .text

/-- The cells of the atom's attribute are compared by value with the atom's scalars, and if the
attribute is numeric, these are doubles. -/
structure Takes (frame : Frame) (schema : Schema) (atom : Predicate) : Prop where
  exact : ∀ a, atom.named? = some a → schema.kind? a = some .numeric → ∀ s ∈ atom.scalars, s.IsExact
  meets : ∀ a, atom.named? = some a → ∀ s ∈ atom.scalars, ∀ i, (frame.cellAt a i).Meets s

/-- The atom has a mask on the table, and the cells are compared by value. -/
def Knows (frame : Frame) (schema : Schema) (tests : RowTests) (atom : Predicate) : Prop :=
  (∃ bs, atom.mask tests frame = .ok bs) ∧ frame.Takes schema atom

/-- A table whose columns are named by texts has none of another name. -/
theorem Suits.column_of_not_text (hframe : frame.Suits schema) {s : Scalar}
    (hs : ∀ a, s ≠ .text a) : frame.column (.scalar s) = .ok (.missing frame.rows) := by
  have hnone : frame.columns.find? (fun e ↦ frame.nameType.finds e.1 s) = none := by
    rw [List.find?_eq_none]
    intro e he hfinds
    obtain ⟨a, ha⟩ := hframe.named e he
    rw [ha] at hfinds
    exact hs a (CommonType.eq_text_of_finds hfinds)
  rw [column, hnone]

/-- What is missing by the schema is missing in the table. -/
theorem Suits.isBlank_of_isMissing (hframe : frame.Suits schema) (hk : schema.kind? a = none)
    {c : Column} (hc : frame.column (.text a) = .ok c) : c.IsBlank := by
  intro v hv
  obtain ⟨i, hi⟩ := List.mem_iff_getElem?.1 hv
  have hrow := hframe.conforms i a
  rw [hk] at hrow
  have hcell := Row.cell_text (frame.row (fun _ _ ↦ false) i) a
  rw [cell_row, hc] at hcell
  have hvalue := congrArg Cell.value? (Except.ok.inj hcell)
  dsimp only at hvalue
  rwa [hi, hrow] at hvalue

theorem Suits.suits (hframe : frame.Suits schema) (i : Nat) :
    (frame.testedRow tests i).Suits (some schema) schema.interpretation where
  schema := rfl
  conforms := by
    rintro _ ⟨⟩
    exact hframe.conforms i
  numeric a hk := by
    have hrow := hframe.conforms i a
    change schema.kind? a = some .numeric at hk
    rwa [hk] at hrow
  categorical _ _ := Option.some_ne_none _

theorem Suits.takes (hframe : frame.Suits schema) (h : frame.Takes schema atom)
    (hn : atom.named? = some a) (i : Nat) :
    (frame.testedRow tests i).Takes (some schema) atom where
  named s hs := by
    cases (Row.attr?_of_named? hn).symm.trans hs
    exact CommonType.names_text _ a
  exact b hb hnum := h.exact b hb (hnum schema rfl)
  meets b cell hb hcell s hs := by
    cases (Row.attr?_of_named? hn).symm.trans hb
    cases (Row.cell_text _ a).symm.trans hcell
    exact h.meets a hn s hs i
  numeric hnone := by cases hnone
  decides schema' b hschema hb hk s hs := by
    cases hschema
    cases hn.symm.trans hb
    exact ⟨h.meets a hn s hs i, fun htext ↦ absurd htext (hframe.labelled hk i)⟩

/-- A row of the table has a truth value for the atoms that the table knows. -/
theorem Suits.knows_row (hframe : frame.Suits schema) (hm : atom.IsMember)
    (hn : atom.named? = some a) (h : frame.Knows schema tests atom) (i : Nat) :
    (frame.testedRow tests i).Knows (some schema) atom := by
  obtain ⟨bs, hbs⟩ := h.1
  exact ⟨⟨_, Predicate.holds_of_mask hm hbs i⟩, hframe.takes h.2 hn i⟩

theorem trueAt_iff_truth (hm : atom.IsMember) (h : ∃ bs, atom.mask tests frame = .ok bs) (i : Nat) :
    atom.TrueAt tests frame i ↔ (frame.testedRow tests i).Truth atom := by
  obtain ⟨bs, hbs⟩ := h
  rw [Row.Truth, Predicate.holds_of_mask hm hbs i, Except.ok.injEq, Predicate.TrueAt]
  constructor
  · rintro ⟨bs', hbs', h⟩
    cases hbs.symm.trans hbs'
    exact h
  · exact fun h ↦ ⟨bs, hbs, h⟩

/-- The table knows an atom that all of its rows know. -/
theorem knows_of_rows (hm : atom.IsMember) (hn : atom.named? = some a)
    (h : ∀ i, (frame.testedRow tests i).Knows (some schema) atom) :
    frame.Knows schema tests atom := by
  refine ⟨Predicate.exists_mask_of_holds hm hn fun i ↦ (h i).1, fun b hb hnum ↦ ?_,
    fun b hb s hs i ↦ (h i).2.meets_named hb s hs⟩
  refine (h 0).2.exact b hb ?_
  rintro _ ⟨⟩
  exact hnum

/-- On an attribute that nothing is there for, an atom comes to the same on every row. -/
theorem trueAt_of_blank {attr : Literal} {c : Column} (hattr : atom.attr? = some attr)
    (hc : frame.column attr = .ok c) (hblank : c.IsBlank)
    (h : ∃ bs, atom.mask tests frame = .ok bs) (i : Nat) :
    atom.TrueAt tests frame i ↔ atom.holdsOfNull = true := by
  obtain ⟨bs, hbs⟩ := h
  have hsame : bs[i]?.getD atom.holdsOfNull = atom.holdsOfNull := by
    cases hb : bs[i]? with
    | none => rfl
    | some b => exact Predicate.mask_of_blank hattr hc hblank hbs b (List.mem_of_getElem? hb)
  rw [← hsame]
  constructor
  · rintro ⟨bs', hbs', h⟩
    cases hbs.symm.trans hbs'
    exact h
  · exact fun h ↦ ⟨bs, hbs, h⟩

/-- Equal atoms are true of the same rows if no column has a name like that of their attribute. -/
theorem Suits.trueAt_congr_of_unnamed (hframe : frame.Suits schema) {p q : Predicate}
    (hp : frame.Knows schema tests p) (hq : frame.Knows schema tests q) (hpm : p.IsMember)
    (hqm : q.IsMember) (h : p.tag = q.tag) (hn : p.named? = none) (i : Nat) :
    p.TrueAt tests frame i ↔ q.TrueAt tests frame i := by
  have hblank : ∀ {atom : Predicate} {s : Scalar}, atom.named? = none →
      atom.attr? = some (.scalar s) → frame.Knows schema tests atom →
      (atom.TrueAt tests frame i ↔ atom.holdsOfNull = true) := by
    intro atom s hn hattr hknows
    refine trueAt_of_blank hattr (hframe.column_of_not_text fun a ha ↦ ?_)
      (Column.isBlank_missing _) hknows.1 i
    rw [Predicate.named?, hattr, ha] at hn
    cases hn
  have hn' := (Predicate.named?_of_tag_eq hpm hqm h).symm.trans hn
  have hnull := Predicate.holdsOfNull_of_tag_eq h
  cases p <;> cases q <;>
    first | exact hpm.elim | exact hqm.elim | exact Iff.rfl | cases h | skip
  case test.test t u =>
    rw [Predicate.TrueAt, Predicate.TrueAt, Predicate.mask, Predicate.mask,
      (Predicate.Tag.test.inj h).1]
    exact Iff.rfl
  case compare.compare | between.between =>
    obtain ⟨⟨s, rfl⟩, -⟩ := hpm
    obtain ⟨⟨t, rfl⟩, -⟩ := hqm
    rw [hblank hn rfl hp, hblank hn' rfl hq, hnull]
  case isIn.isIn | isNull.isNull =>
    obtain ⟨s, rfl⟩ := hpm
    obtain ⟨t, rfl⟩ := hqm
    rw [hblank hn rfl hp, hblank hn' rfl hq, hnull]

/-- Equal atoms that the table knows are true of the same rows. -/
theorem Suits.trueAt_congr (hframe : frame.Suits schema) {p q : Predicate}
    (hp : frame.Knows schema tests p) (hq : frame.Knows schema tests q) (hpm : p.IsMember)
    (hqm : q.IsMember) (h : p.tag = q.tag) (i : Nat) :
    p.TrueAt tests frame i ↔ q.TrueAt tests frame i := by
  rcases hn : p.named? with _ | a
  · exact hframe.trueAt_congr_of_unnamed hp hq hpm hqm h hn i
  have hn' := (Predicate.named?_of_tag_eq hpm hqm h).symm.trans hn
  rw [trueAt_iff_truth hpm hp.1, trueAt_iff_truth hqm hq.1]
  obtain ⟨⟨r, hr⟩, hpt⟩ := hframe.knows_row hpm hn hp i
  obtain ⟨⟨r', hr'⟩, hqt⟩ := hframe.knows_row hqm hn' hq i
  rw [Row.Truth, Row.Truth, hr, hr', Row.holds_congr hpt hqt hpm hqm h hr hr']

/-- **A row of a table is something that predicates can be about.** -/
noncomputable def reading (frame : Frame) (tests : RowTests) (hframe : frame.Suits schema)
    (i : Nat) : Reading schema.interpretation where
  value := (frame.testedRow tests i).value schema.interpretation
  Knows := frame.Knows schema tests
  truth := Predicate.TrueAt tests frame i
  Compares a s := ∀ j, (frame.testedRow tests j).Compares (some schema) a s
  full_mem h := Row.mem_full (hframe.suits i) h
  compares_domain h s hs j := (hframe.suits j).compares_domain h s hs
  truth_of_isMissing := by
    intro atom a hknows hn hmiss
    obtain ⟨c, hc⟩ := frame.exists_column (.text a)
    have hblank := hframe.isBlank_of_isMissing (Schema.isMissing_iff.1 hmiss) hc
    exact trueAt_of_blank (Row.attr?_of_named? hn) hc hblank hknows.1 i
  truth_of_values := by
    intro atom a vs hknows hn h
    have hm := Predicate.isMember_of_values h
    rw [trueAt_iff_truth hm hknows.1]
    exact Row.truth_of_values (hframe.knows_row hm hn hknows i) (hframe.suits i) hn h
  compares_values := by
    intro atom a d hknows hn h s hs j
    exact (hframe.takes hknows.2 hn j).compares (hframe.suits j) hn h s hs
  truth_congr hp hq hpm hqm _ _ h := hframe.trueAt_congr hp hq hpm hqm h i
  knows_isNull hk := knows_of_rows ⟨_, rfl⟩ rfl fun j ↦
    (Row.reading _ (hframe.suits j)).knows_isNull hk
  knows_compare hk op x := knows_of_rows ⟨⟨_, rfl⟩, _, rfl⟩ rfl fun j ↦
    (Row.reading _ (hframe.suits j)).knows_compare hk op x
  knows_isIn hk vs hvs := knows_of_rows ⟨_, rfl⟩ rfl fun j ↦
    (Row.reading _ (hframe.suits j)).knows_isIn hk vs hvs
  knows_between hk l h li hi := knows_of_rows ⟨⟨_, rfl⟩, ⟨_, rfl⟩, _, rfl⟩ rfl fun j ↦
    (Row.reading _ (hframe.suits j)).knows_between hk l h li hi
  truth_eq hk hnum hs := by
    have hknows := knows_of_rows (Predicate.isMember_compare ..) rfl fun j ↦
      ((Row.reading (frame.testedRow tests j) (hframe.suits j)).truth_eq hk hnum (hs j)).1
    exact ⟨hknows, (trueAt_iff_truth (Predicate.isMember_compare ..) hknows.1 i).trans
      ((Row.reading _ (hframe.suits i)).truth_eq hk hnum (hs i)).2⟩
  truth_ne hk hnum hs := by
    have hknows := knows_of_rows (Predicate.isMember_compare ..) rfl fun j ↦
      ((Row.reading (frame.testedRow tests j) (hframe.suits j)).truth_ne hk hnum (hs j)).1
    exact ⟨hknows, (trueAt_iff_truth (Predicate.isMember_compare ..) hknows.1 i).trans
      ((Row.reading _ (hframe.suits i)).truth_ne hk hnum (hs i)).2⟩
  truth_isIn hk hnum hvs := by
    have hknows := knows_of_rows (Predicate.isMember_isIn ..) rfl fun j ↦
      ((Row.reading (frame.testedRow tests j) (hframe.suits j)).truth_isIn hk hnum
        fun s hs ↦ hvs s hs j).1
    exact ⟨hknows, (trueAt_iff_truth (Predicate.isMember_isIn ..) hknows.1 i).trans
      ((Row.reading _ (hframe.suits i)).truth_isIn hk hnum fun s hs ↦ hvs s hs i).2⟩

end Frame

namespace Predicate

variable {frame : Frame} {tests : RowTests} {schema : Schema} {p q : Predicate} {effort : Effort}
  {bs : List Bool}

end Predicate

end RuleCoverage
