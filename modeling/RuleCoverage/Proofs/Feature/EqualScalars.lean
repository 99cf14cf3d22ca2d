import RuleCoverage.Proofs.Feature.Alike
import RuleCoverage.Proofs.Number.Rounding

/-!
# Scalars of one key

Equal scalars may be of different types, and a table does not treat these alike everywhere: a number
does not find a label that is a boolean, a whole number in a cell is rounded for a double and for
nothing else, and a set is rounded or not as a whole.  This file says where none of this shows.  A
column *overlooks* the difference between two scalars (`ColumnType.OverlooksScalars`) or between two
sets (`ColumnType.OverlooksSets`) if it is not one of these, and then equal ones cannot be told
apart by a value of it.

A rounded cell shows only if it is rounded onto the literal: rounding keeps the order, so a number
cannot come to the other side of a double that is a whole number (`Scalar.standAlike_widened`).

## What is here

* `CommonType.finds_congr` — which labels are found.
* `ColumnType.comparesAlike`, `ColumnType.equals_scalars_congr` — a value of a column and two
  scalars.
* `ColumnType.contains_congr`, `Cell.isIn_congr` — a value of a column, or a cell, and two sets.
-/

set_option autoImplicit false

namespace RuleCoverage

/-! ## Rounded scalars -/

namespace Scalar

variable {a b c : Scalar}

/-- What equals a double is not changed by rounding. -/
theorem isExact_of_key {x : Double} (h : a.key = .number x.value) : a.IsExact := by
  cases a with
  | int n =>
    obtain ⟨z, hz, hkey⟩ := Double.ofInt?_of_value (Key.number.inj h).symm
    have hvalue : z.value = x.value := Extended.toEReal_inj.1 (Double.toEReal_inj.2 hkey)
    rw [IsExact, widened, hz, h]
    exact congrArg Key.number hvalue
  | _ => rfl

theorem isExact_ofBool (b : Bool) : (int (ofBool b)).IsExact := by
  have hkeys : (int (ofBool b)).widened.key = (int (ofBool b)).key := by
    cases b <;> decide +kernel
  exact hkeys

/-- Of two scalars of one key, rounding changes neither, unless they are one whole number. -/
theorem eq_or_isExact (h : a.key = b.key) : a = b ∨ a.IsExact ∧ b.IsExact := by
  have hbool : ∀ {n : Int} {t : Bool}, (int n).key = (bool t).key → (int n).IsExact := by
    intro n t hkey
    have hn : n = ofBool t := by simpa [key] using hkey
    rw [hn]
    exact isExact_ofBool t
  cases a with
  | int n =>
    cases b with
    | int m =>
      have hnm : n = m := by simpa [key] using h
      exact .inl (congrArg int hnm)
    | double x => exact .inr ⟨isExact_of_key h, rfl⟩
    | bool t | flag t => exact .inr ⟨hbool h, rfl⟩
    | null | nan | text => cases h
  | _ =>
    cases b with
    | int m =>
      refine .inr ⟨rfl, ?_⟩
      first
      | exact isExact_of_key h.symm
      | exact hbool h.symm
      | cases h
    | _ => exact .inr ⟨rfl, rfl⟩

/-- Scalars of one key have one key after rounding. -/
theorem widened_congr (h : a.key = b.key) : a.widened.key = b.widened.key := by
  rcases eq_or_isExact h with rfl | ⟨ha, hb⟩
  · rfl
  · rw [ha, hb, h]

/-- Neither equality nor order can tell two keys apart by a third one. -/
structure Key.StandAlike (k k' l : Key) : Prop where
  eq_iff : k = l ↔ k' = l
  ordered : k.ordered l = k'.ordered l
  orders (op : Comparison) : orders op k l = orders op k' l

theorem Key.StandAlike.refl (k l : Key) : StandAlike k k l := ⟨Iff.rfl, rfl, fun _ ↦ rfl⟩

theorem Key.StandAlike.symm {k k' l : Key} (h : StandAlike k k' l) : StandAlike k' k l :=
  ⟨h.eq_iff.symm, h.ordered.symm, fun op ↦ (h.orders op).symm⟩

/-- **A scalar that is not rounded onto a double that is a whole number stands to it as before.** -/
theorem standAlike_widened {x : Double} {m : Int} (hx : x.value = .finite m)
    (h : a.widened.key = .number x.value → a.key = .number x.value) :
    Key.StandAlike a.widened.key a.key (.number x.value) := by
  by_cases hexact : a.IsExact
  · rw [hexact]
    exact .refl _ _
  cases a with
  | int n =>
    cases hw : Double.ofInt? n with
    | none => exact absurd (by rw [IsExact, widened, hw]) hexact
    | some w =>
      have hwide : (int n).widened.key = .number w.value := by rw [widened, hw, key]
      have hne : w.key = x.key → n = m := by
        intro hkey
        have hvalue : w.value = x.value := Extended.toEReal_inj.1 (Double.toEReal_inj.2 hkey)
        have hn := h (hwide.trans (congrArg Key.number hvalue))
        rw [hx] at hn
        simpa [key] using hn
      refine ⟨⟨h, fun hn ↦ absurd (isExact_of_key hn) hexact⟩, by rw [hwide]; rfl, fun op ↦ ?_⟩
      rw [hwide]
      refine congrArg op.accepts ((Double.compare_of_ofInt? hw hx hne).trans ?_)
      rw [hx]
  | _ => exact absurd rfl hexact

end Scalar

/-! ## Labels -/

namespace CommonType

variable {type : CommonType} {label b c : Scalar}

/-- A label of the type is not one that is found by one of two scalars only: among numbers and among
booleans it is none that they equal, or they are both booleans or both none. -/
def Overlooks (type : CommonType) (label b c : Scalar) : Prop :=
  match type with
  | .int | .double | .bool => label.key = b.key → b.isBool = c.isBool
  | .text | .mixed => True

theorem overlooks_self (type : CommonType) (label b : Scalar) : type.Overlooks label b b := by
  cases type <;> first | exact fun _ ↦ rfl | trivial

/-- **Scalars of one key find the same labels.** -/
theorem finds_congr (hkey : b.key = c.key) (h : type.Overlooks label b c) :
    type.finds label b = type.finds label c := by
  have hbeq : (label == b) = (label == c) := by
    rw [Bool.eq_iff_iff, Scalar.beq_iff_key, Scalar.beq_iff_key, hkey]
  have hwide : (label == b.widened) = (label == c.widened) := by
    rw [Bool.eq_iff_iff, Scalar.beq_iff_key, Scalar.beq_iff_key, Scalar.widened_congr hkey]
  cases type with
  | mixed => exact hbeq
  | text =>
    by_cases hm : b.IsMissing
    · rw [Scalar.eq_of_isMissing hm hkey]
    · have hm' : ¬ c.IsMissing := fun h' ↦ hm ((Scalar.isMissing_congr hkey).2 h')
      cases b <;> cases c <;> first | exact absurd rfl hm | exact absurd rfl hm' | exact hbeq
  | int | bool =>
    rw [finds, finds, hbeq]
    by_cases hlabel : label.key = b.key
    · rw [h hlabel]
    · have hne : (label == c) = false := by
        rw [← hbeq, ← Bool.not_eq_true, Scalar.beq_iff_key]
        exact hlabel
      rw [hne, Bool.and_false, Bool.and_false]
  | double =>
    rw [finds, finds, hwide]
    by_cases hbool : b.isBool = c.isBool
    · rw [hbool]
    · -- one of them is a boolean, and rounding changes neither
      have hexact : c.IsExact := by
        rcases Scalar.eq_or_isExact hkey with rfl | ⟨-, hc⟩
        · exact absurd rfl hbool
        · exact hc
      have hne : (label == c.widened) = false := by
        rw [← Bool.not_eq_true, Scalar.beq_iff_key, show c.widened.key = c.key from hexact, ← hkey]
        exact fun hlabel ↦ hbool (h hlabel)
      rw [hne, Bool.and_false, Bool.and_false]

end CommonType

/-! ## Columns and scalars -/

namespace ColumnType

variable {type type' : ColumnType} {op : Comparison} {a b c : Scalar}

/-- A value of the column is compared alike with two scalars of one key: a whole number is rounded
for both or for neither, or it is not rounded onto them, and a label is not found by one of them
only. -/
def OverlooksScalars (type : ColumnType) (op : Comparison) (a b c : Scalar) : Prop :=
  match type with
  | .int => (type.operands a b).1.key = (type.operands a c).1.key ∨
      (a.widened.key = b.key → a.key = b.key)
  | .labels labelType _ => op = .eq ∨ op = .ne → labelType.Overlooks a b c
  | _ => True

theorem overlooksScalars_self (type : ColumnType) (op : Comparison) (a b : Scalar) :
    type.OverlooksScalars op a b b := by
  cases type with
  | int => exact .inl rfl
  | labels labelType all => exact fun _ ↦ labelType.overlooks_self a b
  | _ => trivial

/-- Whether the column is one of labels. -/
def IsLabels (type : ColumnType) : Prop := ∃ labelType all, type = .labels labelType all

/-- What is compared in one column and what is compared in another one cannot be told apart. -/
structure ComparesAlike (type type' : ColumnType) (a b c : Scalar) : Prop where
  literal : (type.operands a b).2.key = (type'.operands a c).2.key
  value : Scalar.Key.StandAlike (type.operands a b).1.key (type'.operands a c).1.key
    (type.operands a b).2.key

theorem ComparesAlike.of_keys (h₁ : (type.operands a b).1.key = (type'.operands a c).1.key)
    (h₂ : (type.operands a b).2.key = (type'.operands a c).2.key) :
    ComparesAlike type type' a b c :=
  ⟨h₂, h₁ ▸ .refl _ _⟩

/-- In a column of whole numbers these are rounded for doubles only, and a number that is not one of
those is whole. -/
theorem operands_int (a b : Scalar) :
    (int.operands a b).2.key = b.key ∧
      ((∃ x, b = .double x ∧ (int.operands a b).1 = a.widened) ∨
        (int.operands a b).1 = a ∧ ∀ x, b.key = .number x → ∃ m : Int, x = .finite m) := by
  cases b with
  | double x => exact ⟨rfl, .inl ⟨x, rfl, rfl⟩⟩
  | int m => exact ⟨rfl, .inr ⟨rfl, fun x hx ↦ ⟨m, (Scalar.Key.number.inj hx).symm⟩⟩⟩
  | bool t | flag t =>
    exact ⟨rfl, .inr ⟨rfl, fun x hx ↦ ⟨Scalar.ofBool t, (Scalar.Key.number.inj hx).symm⟩⟩⟩
  | null | nan | text => exact ⟨rfl, .inr ⟨rfl, fun x hx ↦ nomatch hx⟩⟩

/-- **Scalars of one key cannot be told apart by a column that overlooks their difference.** -/
theorem comparesAlike (hkey : b.key = c.key) (hlabels : ¬ type.IsLabels)
    (h : type.OverlooksScalars op a b c) : ComparesAlike type type a b c := by
  cases type with
  | labels labelType all => exact absurd ⟨labelType, all, rfl⟩ hlabels
  | double =>
    refine .of_keys rfl (Scalar.widened_congr ?_)
    rw [Scalar.key_plain, Scalar.key_plain, hkey]
  | int =>
    obtain ⟨hb, hb'⟩ := operands_int a b
    obtain ⟨hc, hc'⟩ := operands_int a c
    have hsecond : (int.operands a b).2.key = (int.operands a c).2.key := by rw [hb, hc, hkey]
    rcases h with hfirst | hround
    · exact .of_keys hfirst hsecond
    refine ⟨hsecond, ?_⟩
    rw [hb]
    rcases hb' with ⟨x, rfl, hx⟩ | ⟨hx, hwhole⟩ <;> rcases hc' with ⟨y, rfl, hy⟩ | ⟨hy, hwhole'⟩
    · rw [hx, hy]
      exact .refl _ _
    · obtain ⟨m, hm⟩ := hwhole' x.value hkey.symm
      rw [hx, hy]
      exact Scalar.standAlike_widened hm hround
    · obtain ⟨m, hm⟩ := hwhole y.value hkey
      rw [hkey] at hround ⊢
      rw [hx, hy]
      exact (Scalar.standAlike_widened hm hround).symm
    · rw [hx, hy]
      exact .refl _ _
  | mixed => exact .of_keys rfl hkey
  | bool | text | time =>
    refine .of_keys rfl ?_
    show b.plain.key = c.plain.key
    rw [Scalar.key_plain, Scalar.key_plain, hkey]

theorem equals_scalars (hlabels : ¬ type.IsLabels) : type.equals (.scalar a) (.scalar b) =
    .ok ((type.operands a b).1 == (type.operands a b).2) := by
  cases type with
  | labels labelType all => exact absurd ⟨labelType, all, rfl⟩ hlabels
  | _ => rfl

theorem ComparesAlike.equals (h : ComparesAlike type type' a b c) (hlabels : ¬ type.IsLabels)
    (hlabels' : ¬ type'.IsLabels) :
    type.equals (.scalar a) (.scalar b) = type'.equals (.scalar a) (.scalar c) := by
  rw [equals_scalars hlabels, equals_scalars hlabels']
  refine congrArg Except.ok ?_
  rw [Bool.eq_iff_iff, Scalar.beq_iff_key, Scalar.beq_iff_key, ← h.literal]
  exact h.value.eq_iff

theorem ComparesAlike.orders (h : ComparesAlike type type' a b c) (hlabels : ¬ type.IsLabels)
    (hlabels' : ¬ type'.IsLabels) (hb : ¬ b.IsMissing) (hc : ¬ c.IsMissing) :
    (type.orders op (.scalar a) (.scalar b)).toOption =
      (type'.orders op (.scalar a) (.scalar c)).toOption := by
  rw [orders_scalar (fun t all ht ↦ hlabels ⟨t, all, ht⟩) hb,
    orders_scalar (fun t all ht ↦ hlabels' ⟨t, all, ht⟩) hc]
  refine toOption_bind_congr ?_ fun _ ↦ rfl
  rw [Scalar.toOption_orders, Scalar.toOption_orders, ← h.literal, h.value.ordered,
    h.value.orders op]

/-- **Scalars of one key equal a value of the column together.** -/
theorem equals_scalars_congr (hkey : b.key = c.key) (hop : op = .eq ∨ op = .ne)
    (h : type.OverlooksScalars op a b c) :
    type.equals (.scalar a) (.scalar b) = type.equals (.scalar a) (.scalar c) := by
  by_cases hlabels : type.IsLabels
  · obtain ⟨labelType, all, rfl⟩ := hlabels
    exact congrArg Except.ok (CommonType.finds_congr hkey (h hop))
  · exact (comparesAlike hkey hlabels h).equals hlabels hlabels

end ColumnType

/-! ## Members of sets -/

namespace ColumnType

variable {type : ColumnType} {a : Scalar} {vs ws : List Scalar}

/-- The members of a set are rounded before the values of the column are looked for among them. -/
def Rounds (type : ColumnType) (vs : List Scalar) : Prop := type.members vs = vs.map Scalar.widened

theorem members_of_not_rounds (h : ¬ type.Rounds vs) : type.members vs = vs := by
  have hcases : type.members vs = vs.map Scalar.widened ∨ type.members vs = vs := by
    cases type with
    | int | double =>
      rw [members]
      split
      · exact .inl rfl
      · exact .inr rfl
    | _ => exact .inr rfl
  exact hcases.resolve_left h

/-- A value of the column is looked for alike in two equal sets: the members are rounded in both or
in neither, or rounding them does not matter to the value, and no label that is a number is looked
for among booleans only in one of them. -/
def OverlooksSets (type : ColumnType) (a : Scalar) (vs ws : List Scalar) : Prop :=
  match type with
  | .int | .double => (type.Rounds vs ↔ type.Rounds ws) ∨
      ((∃ b ∈ vs, b.widened.key = a.key) ↔ ∃ b ∈ vs, b.key = a.key)
  | .labels .int _ | .labels .double _ =>
      vs.all Scalar.isBool = ws.all Scalar.isBool ∨ ∀ b ∈ vs, b.key ≠ a.key
  | _ => True

theorem overlooksSets_self (type : ColumnType) (a : Scalar) (vs : List Scalar) :
    type.OverlooksSets a vs vs := by
  cases type with
  | int | double => exact .inl Iff.rfl
  | labels labelType all => cases labelType <;> first | exact .inl rfl | trivial
  | _ => trivial

/-- What equal sets have in common is left of them after rounding. -/
theorem exists_widened_congr (h : ∀ k, (∃ b ∈ vs, b.key = k) ↔ ∃ b ∈ ws, b.key = k)
    {k : Scalar.Key} : (∃ b ∈ vs, b.widened.key = k) ↔ ∃ b ∈ ws, b.widened.key = k := by
  constructor
  · rintro ⟨b, hb, hk⟩
    obtain ⟨c, hc, hbc⟩ := (h b.key).1 ⟨b, hb, rfl⟩
    exact ⟨c, hc, (Scalar.widened_congr hbc).trans hk⟩
  · rintro ⟨c, hc, hk⟩
    obtain ⟨b, hb, hbc⟩ := (h c.key).2 ⟨c, hc, rfl⟩
    exact ⟨b, hb, (Scalar.widened_congr hbc).trans hk⟩

theorem any_beq_iff (a : Scalar) (vs : List Scalar) :
    vs.any (a == ·) = true ↔ ∃ b ∈ vs, b.key = a.key := by
  simp only [List.any_eq_true, Scalar.beq_iff_key, @eq_comm _ a.key]

theorem any_members_of_rounds (h : type.Rounds vs) :
    (type.members vs).any (a == ·) = true ↔ ∃ b ∈ vs, b.widened.key = a.key := by
  rw [h, any_beq_iff]
  simp only [List.mem_map, exists_exists_and_eq_and]

theorem any_members_of_not_rounds (h : ¬ type.Rounds vs) :
    (type.members vs).any (a == ·) = true ↔ ∃ b ∈ vs, b.key = a.key := by
  rw [members_of_not_rounds h, any_beq_iff]

/-- Numbers are looked for in columns of numbers alike, if rounding the members does not matter. -/
theorem any_members_congr (h : ∀ k, (∃ b ∈ vs, b.key = k) ↔ ∃ b ∈ ws, b.key = k)
    (hrounds : (type.Rounds vs ↔ type.Rounds ws) ∨
      ((∃ b ∈ vs, b.widened.key = a.key) ↔ ∃ b ∈ vs, b.key = a.key)) :
    (type.members vs).any (a == ·) = true ↔ (type.members ws).any (a == ·) = true := by
  by_cases hvs : type.Rounds vs <;> by_cases hws : type.Rounds ws
  · rw [any_members_of_rounds hvs, any_members_of_rounds hws]
    exact exists_widened_congr h
  · rw [any_members_of_rounds hvs, any_members_of_not_rounds hws]
    exact (hrounds.resolve_left fun hiff ↦ hws (hiff.1 hvs)).trans (h a.key)
  · rw [any_members_of_not_rounds hvs, any_members_of_rounds hws]
    exact (hrounds.resolve_left fun hiff ↦ hvs (hiff.2 hws)).symm.trans (exists_widened_congr h)
  · rw [any_members_of_not_rounds hvs, any_members_of_not_rounds hws]
    exact h a.key

/-- A label that is a number is in no set of booleans. -/
theorem agreesWithSome_number {type : CommonType} (htype : type = .int ∨ type = .double) :
    type.agreesWithSome a vs = true ↔ vs.all Scalar.isBool = false ∧ ∃ b ∈ vs, b.key = a.key := by
  rw [CommonType.agreesWithSome]
  cases hall : vs.all Scalar.isBool with
  | true =>
    have hnone : ∀ b, type.agree .bool a b = false := by
      rcases htype with rfl | rfl <;> exact fun _ ↦ rfl
    simp [hnone]
  | false =>
    have hsame : type.agree .mixed a = (a == ·) := by
      rcases htype with rfl | rfl <;> rfl
    rw [if_neg Bool.false_ne_true, hsame, any_beq_iff]
    exact (and_iff_right rfl).symm

theorem agreesWithSome_other {type : CommonType} (htype : ¬ (type = .int ∨ type = .double)) :
    type.agreesWithSome a vs = true ↔ ∃ b ∈ vs, b.key = a.key := by
  have hsame : type.agree (if vs.all Scalar.isBool then .bool else .mixed) a = (a == ·) := by
    split <;> cases type <;> first | rfl | exact absurd (by simp) htype
  rw [CommonType.agreesWithSome, hsame, any_beq_iff]

/-- **Equal sets have a value of the column as a member together.** -/
theorem contains_congr (h : ∀ k, (∃ b ∈ vs, b.key = k) ↔ ∃ b ∈ ws, b.key = k)
    (hoverlooks : type.OverlooksSets a vs ws) :
    type.contains (.scalar a) vs = type.contains (.scalar a) ws := by
  rw [Bool.eq_iff_iff]
  cases type with
  | int | double => exact any_members_congr h hoverlooks
  | mixed | bool | text | time =>
    exact (any_beq_iff a vs).trans ((h a.key).trans (any_beq_iff a ws).symm)
  | labels labelType all =>
    show labelType.agreesWithSome a vs = true ↔ labelType.agreesWithSome a ws = true
    by_cases htype : labelType = .int ∨ labelType = .double
    · have hlabels : vs.all Scalar.isBool = ws.all Scalar.isBool ∨ ∀ b ∈ vs, b.key ≠ a.key := by
        rcases htype with rfl | rfl <;> exact hoverlooks
      rw [agreesWithSome_number htype, agreesWithSome_number htype, h a.key]
      rcases hlabels with hall | hnone
      · rw [hall]
      · have hnone' : ¬ ∃ b ∈ ws, b.key = a.key := fun hex ↦ by
          obtain ⟨b, hb, hkey⟩ := (h a.key).2 hex
          exact hnone b hb hkey
        exact iff_of_false (fun h ↦ hnone' h.2) fun h ↦ hnone' h.2
    · rw [agreesWithSome_other htype, agreesWithSome_other htype]
      exact h a.key

end ColumnType

namespace Cell

variable {cell : Cell} {vs ws : Distinct Scalar}

/-- The cell is looked for alike in two equal sets. -/
def OverlooksSets (cell : Cell) (vs ws : Distinct Scalar) : Prop :=
  ∀ a, cell.value? = some (.scalar a) → cell.column.OverlooksSets a vs.toList ws.toList

/-- **Equal sets have a cell as a member together.** -/
theorem isIn_congr (hbeq : (vs == ws) = true) (h : cell.OverlooksSets vs ws) :
    cell.isIn vs = cell.isIn ws := by
  have hkeys := fun k ↦ iff_of_eq (congrFun ((Predicate.sets_beq_iff vs ws).1 hbeq) k)
  rw [isIn, isIn]
  cases hcell : cell.value? with
  | none => rfl
  | some v =>
    cases v with
    | scalar a => exact ColumnType.contains_congr hkeys (h a hcell)
    | list | dict => rfl

end Cell

end RuleCoverage
