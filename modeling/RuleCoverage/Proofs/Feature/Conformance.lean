import RuleCoverage.Predicate.Mask
import RuleCoverage.Proofs.Feature.Numbers

/-!
# Rows of the features that a schema describes

A row has for every attribute of its schema a value of the attribute's kind, or nothing.  What an
atom means for a kind is then so of the row's cell just when the atom holds, as long as the cell is
compared by value with the literals of the atom.

## What is here

* `Row.ConformsTo`, `Row.Takes` — what is asked of a row, and of an atom on it.
* `Row.holds_iff_meaning` — an interpreted atom holds of a row when what it means is so of the cell.
-/

set_option autoImplicit false

namespace RuleCoverage

/-! ## What is asked of rows and of atoms -/

/-- The scalar that a literal is. -/
def Literal.scalar? : Literal → Option Scalar
  | .scalar s => some s
  | _ => none

theorem Literal.isScalar_of_point? {v : Literal} {y : Double} (h : v.point? = some y) :
    v.IsScalar := by
  cases v with
  | scalar s => exact ⟨s, rfl⟩
  | list | dict => cases h

/-- The scalars that an atom compares its attribute with. -/
def Predicate.scalars (atom : Predicate) : List Scalar :=
  (atom.literals?.getD []).filterMap Literal.scalar?

namespace Predicate

@[simp] theorem scalars_compare (a : Literal) (op : Comparison) (s : Scalar) :
    (compare a op (.scalar s)).scalars = [s] := rfl

@[simp] theorem scalars_between (a : Literal) (l u : Scalar) (li ui : Bool) :
    (between a (.scalar l) (.scalar u) li ui).scalars = [l, u] := rfl

@[simp] theorem scalars_isNull (a : Literal) : (isNull a).scalars = [] := rfl

@[simp] theorem mem_scalars_isIn {a : Literal} {vs : Distinct Scalar} {s : Scalar} :
    s ∈ (isIn a vs).scalars ↔ s ∈ vs.toList := by
  simp [scalars, literals?, Literal.scalar?]

end Predicate

/-- The scalars of an atom that means something for a kind without an order fit the kind. -/
theorem Predicate.MeansOfKey.fits {atom : Predicate} {k : Kind} {m : Option Scalar.Key → Prop}
    (h : atom.MeansOfKey k m) : ∀ s ∈ atom.scalars, k.fits s = true := by
  intro s hs
  cases h with
  | eq ht | ne ht =>
    obtain rfl := List.mem_singleton.1 hs
    exact ht
  | isIn hvs => exact hvs s (mem_scalars_isIn.1 hs)

/-- The cell is empty or equals one of the values, and it is decided which of them it equals. -/
def Cell.IsOneOf (cell : Cell) (values : Distinct Scalar) : Prop :=
  (cell.value? = none ∨ values.HasKey cell.key?) ∧ ∀ s ∈ values.toList, cell.Decides s

/-- An attribute is looked for by its name as it stands: in a table with numbers for names not by a
boolean that counts as one of them, and in a table with booleans for names not by a number. -/
def CommonType.Names (type : CommonType) (s : Scalar) : Prop :=
  match type with
  | .int | .double => s.isBool = false
  | .bool => s.kind? ≠ some .numeric
  | _ => True

theorem CommonType.names_text (type : CommonType) (a : String) : type.Names (.text a) := by
  cases type with
  | bool => exact nofun
  | int | double => rfl
  | text | mixed => trivial

/-- The attribute may be read as numeric: a schema says so, or there is no schema. -/
def MayBeNumeric (schema? : Option Schema) (a : String) : Prop :=
  ∀ schema, schema? = some schema → schema.kind? a = some .numeric

/-- What is read as numeric may be. -/
theorem Interpretation.mayBeNumeric {ctx : Interpretation} {schema? : Option Schema} {a : String}
    (hctx : ctx.schema? = schema?) (hk : ctx.kind? a = some .numeric) : MayBeNumeric schema? a := by
  intro schema hschema
  rwa [kind?, hctx, hschema] at hk

namespace Row

/-- The cell of an attribute that is named by a text. -/
def cellNamed (row : Row) (a : String) : Cell :=
  match row.cells.find? fun e ↦ row.nameType.finds e.1 (.text a) with
  | some e => e.2
  | none => ⟨.mixed, none⟩

/-- A row of the features that a schema describes: it has nothing for an attribute outside the
schema, and a value of its kind or nothing for any other. -/
def ConformsTo (row : Row) (schema : Schema) : Prop :=
  ∀ a, match schema.kind? a with
    | none => (row.cellNamed a).value? = none
    | some .numeric => (row.cellNamed a).IsNumeric
    | some .boolean => (row.cellNamed a).IsOneOf Schema.truthValues
    | some .categorical => (row.cellNamed a).IsOneOf (schema.categoriesOf a)
    | some .string => True

/-- The row conforms to the schema, if there is one. -/
def Conforms (row : Row) (schema? : Option Schema) : Prop :=
  ∀ schema, schema? = some schema → row.ConformsTo schema

/-- The cell of an atom is compared by value with the atom's literals, and where numbers are read as
doubles, the literals are doubles.  Without a schema the cell has to be numeric if one of them is a
number, and a category has to be decided by the literals. -/
structure Takes (row : Row) (schema? : Option Schema) (atom : Predicate) : Prop where
  named : ∀ s, atom.attr? = some (.scalar s) → row.nameType.Names s
  exact : ∀ a, atom.named? = some a → MayBeNumeric schema? a → ∀ s ∈ atom.scalars, s.IsExact
  meets : ∀ a cell, atom.attr? = some a → row.cell a = .ok cell → ∀ s ∈ atom.scalars, cell.Meets s
  numeric : schema? = none → ∀ a, atom.named? = some a →
    (∃ s ∈ atom.scalars, s.kind? = some .numeric) → (row.cellNamed a).IsNumeric
  decides : ∀ schema a, schema? = some schema → atom.named? = some a →
    schema.kind? a = some .categorical → ∀ s ∈ atom.scalars, (row.cellNamed a).Decides s

variable {row : Row} {schema? : Option Schema} {ctx : Interpretation} {atom : Predicate}
  {a : String} {k : Kind}

theorem cell_text (row : Row) (a : String) : row.cell (.text a) = .ok (row.cellNamed a) := by
  rw [cell, cellNamed]
  cases row.cells.find? fun e ↦ row.nameType.finds e.1 (.text a) <;> rfl

theorem attr?_of_named? (h : atom.named? = some a) : atom.attr? = some (.text a) := by
  obtain ⟨v, hv, ha⟩ := Option.bind_eq_some_iff.1 h
  rw [hv]
  cases v with
  | scalar s =>
    cases s <;> cases ha
    rfl
  | list | dict => cases ha

/-- The cell of an atom is compared by value with its literals. -/
theorem Takes.meets_named (h : row.Takes schema? atom) (hn : atom.named? = some a) :
    ∀ s ∈ atom.scalars, (row.cellNamed a).Meets s :=
  h.meets _ _ (attr?_of_named? hn) (row.cell_text a)

/-! ## Interpreted atoms -/

/-- What the attribute is for the row.  Only of a numeric attribute is the number looked at. -/
noncomputable def value (row : Row) (ctx : Interpretation) (a : String) : Option Value :=
  if ctx.kind? a = some .numeric then (row.cellNamed a).number?.map fun x ↦ .number x.toEReal
  else (row.cellNamed a).value?.map .literal

/-- The interpretation is that of a schema that the row conforms to, or without a schema one that
takes nothing for a number that is none in the row. -/
structure Suits (row : Row) (schema? : Option Schema) (ctx : Interpretation) : Prop where
  schema : ctx.schema? = schema?
  conforms : row.Conforms schema?
  numeric : ∀ a, ctx.kind? a = some .numeric → (row.cellNamed a).IsNumeric
  categorical : ∀ a, ctx.kind? a = some .categorical → schema? ≠ none

/-- With a schema only what is numeric there may be. -/
theorem Suits.kind?_of_mayBeNumeric (hrow : row.Suits schema? ctx) (hschema : schema? ≠ none)
    (h : MayBeNumeric schema? a) : ctx.kind? a = some .numeric := by
  obtain ⟨schema, hs⟩ := Option.ne_none_iff_exists'.1 hschema
  rw [Interpretation.kind?, hrow.schema, hs]
  exact h schema hs

theorem value_toEReal (hk : ctx.kind? a = some .numeric) :
    (row.value ctx a).map Value.toEReal = (row.cellNamed a).number?.map Extended.toEReal := by
  rw [value, if_pos hk, Option.map_map]
  rfl

theorem value_key? (hk : ctx.kind? a ≠ some .numeric) :
    (row.value ctx a).bind Value.key? = (row.cellNamed a).key? := by
  rw [value, if_neg hk, Option.bind_map]
  rfl

theorem value_eq_none (hrow : row.Suits schema? ctx) :
    row.value ctx a = none ↔ (row.cellNamed a).value? = none := by
  rw [value]
  split
  · rename_i hk
    rw [Option.map_eq_none_iff, (hrow.numeric a hk).number?_eq_none]
  · rw [Option.map_eq_none_iff]

theorem holds_iff_of_meansOfNumber (hattr : atom.attr? = some (.text a))
    (hcell : (row.cellNamed a).IsNumeric) (hexact : ∀ s ∈ atom.scalars, s.IsExact)
    {m : Option EReal → Prop} (hm : atom.MeansOfNumber m) :
    ∃ r, atom.holds row = .ok r ∧
      (r = true ↔ m ((row.cellNamed a).number?.map Extended.toEReal)) := by
  cases hm with
  | @compare b v op y hv =>
    cases hattr
    obtain ⟨s, rfl⟩ := Literal.isScalar_of_point? hv
    obtain ⟨r, hr, hiff⟩ := hcell.compare_iff op (hexact s (List.mem_singleton_self s)) hv
    refine ⟨r, ?_, hiff⟩
    rw [Predicate.holds, cell_text]
    exact hr
  | @isIn b vs ys hvs =>
    cases hattr
    refine ⟨(row.cellNamed a).isIn vs, ?_, hcell.isIn_iff (fun s hs ↦ hexact s ?_) hvs⟩
    · rw [Predicate.holds, cell_text]
      rfl
    · exact Predicate.mem_scalars_isIn.2 hs
  | @between b l u li ui y z hl hu =>
    cases hattr
    obtain ⟨s, rfl⟩ := Literal.isScalar_of_point? hl
    obtain ⟨t, rfl⟩ := Literal.isScalar_of_point? hu
    obtain ⟨r, hr, hiff⟩ := hcell.between_iff li ui (hexact s (List.mem_cons_self)) hl
      (hexact t (List.mem_cons_of_mem _ (List.mem_singleton_self t))) hu
    refine ⟨r, ?_, hiff⟩
    rw [Predicate.holds, cell_text]
    exact hr

theorem holds_iff_of_meansOfKey (hattr : atom.attr? = some (.text a))
    (hdecides : ∀ s ∈ atom.scalars, (row.cellNamed a).Decides s)
    {m : Option Scalar.Key → Prop} (hm : atom.MeansOfKey k m) :
    ∃ r, atom.holds row = .ok r ∧ (r = true ↔ m (row.cellNamed a).key?) := by
  cases hm with
  | @eq b s =>
    cases hattr
    refine ⟨_, ?_, decide_eq_true_iff⟩
    rw [Predicate.holds, cell_text]
    exact Cell.compare_eq (hdecides s (List.mem_singleton_self s))
  | @ne b s =>
    cases hattr
    refine ⟨_, ?_, decide_eq_true_iff⟩
    rw [Predicate.holds, cell_text]
    exact Cell.compare_ne (hdecides s (List.mem_singleton_self s))
  | @isIn b vs =>
    cases hattr
    refine ⟨(row.cellNamed a).isIn vs, ?_, ?_⟩
    · rw [Predicate.holds, cell_text]
      rfl
    · rw [Cell.isIn_eq fun s hs ↦ ?_, Distinct.HasKey]
      · simp only [eq_comm]
      · exact (hdecides s (Predicate.mem_scalars_isIn.2 hs)).1

/-- The cell of an interpreted atom is decided by its literals. -/
theorem Takes.decides_of_fits (htakes : row.Takes schema? atom) (hrow : row.Suits schema? ctx)
    (hn : atom.named? = some a) (hk : ctx.kind? a = some k) (hk' : k ≠ .numeric) {s : Scalar}
    (hs : s ∈ atom.scalars) (hfits : k.fits s = true) : (row.cellNamed a).Decides s := by
  have hmeets := htakes.meets_named hn s hs
  have hkind : s.kind? = some k → (row.cellNamed a).Decides s := by
    refine fun h ↦ ⟨hmeets, fun _ hm ↦ ?_⟩
    rcases (Scalar.isMissing_iff s).1 hm with rfl | rfl <;> cases h
    exact hk' rfl
  cases k with
  | numeric => exact absurd rfl hk'
  | boolean | string => exact hkind (by simpa [Kind.fits] using hfits)
  | categorical =>
    obtain ⟨schema, hschema⟩ := Option.ne_none_iff_exists'.1 (hrow.categorical a hk)
    rw [Interpretation.kind?, hrow.schema, hschema] at hk
    exact htakes.decides schema a hschema hn hk s hs

/-- **An interpreted atom holds of a row when what it means is so of the cell.** -/
theorem holds_iff_meaning (htakes : row.Takes schema? atom) (hrow : row.Suits schema? ctx)
    (hn : atom.named? = some a) (hk : ctx.kind? a = some k) {m : Option Value → Prop}
    (hm : atom.meaning? k = some m) :
    ∃ r, atom.holds row = .ok r ∧ (r = true ↔ m (row.value ctx a)) := by
  have hattr := attr?_of_named? hn
  cases Predicate.means_iff.2 hm with
  | isNull b =>
    cases hattr
    refine ⟨(row.cellNamed a).isMissing, ?_, ?_⟩
    · rw [Predicate.holds, cell_text]
      rfl
    · dsimp only
      rw [value_eq_none hrow, Cell.isMissing, Option.isNone_iff_eq_none]
  | number hnum h =>
    rw [hnum] at hk
    dsimp only
    rw [value_toEReal hk]
    exact holds_iff_of_meansOfNumber hattr (hrow.numeric a hk)
      (htakes.exact a hn (Interpretation.mayBeNumeric hrow.schema hk)) h
  | key hnum h =>
    have hk' : ctx.kind? a ≠ some .numeric := by
      rw [hk]
      exact fun hk ↦ hnum (Option.some.inj hk)
    dsimp only
    rw [value_key? hk']
    refine holds_iff_of_meansOfKey hattr (fun s hs ↦ ?_) h
    exact htakes.decides_of_fits hrow hn hk hnum hs (h.fits s hs)

end Row

end RuleCoverage
