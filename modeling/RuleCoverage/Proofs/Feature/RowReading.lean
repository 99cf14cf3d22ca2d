import RuleCoverage.Proofs.Feature.Conformance
import RuleCoverage.Proofs.Feature.EqualScalars

/-!
# Rows that predicates can be about

A row has a truth value for an atom where the atom can be evaluated.  It is a `Reading` of a schema
that it conforms to, or of the kinds inferred from a predicate, as long as its cells are compared by
value with the literals of the atoms that are asked about (`Row.Takes`).

## What is here

* `Row.holds_congr` — equal atoms that can be evaluated are true together.
* `Row.reading` — a row as something that predicates can be about.
-/

set_option autoImplicit false

namespace RuleCoverage

namespace Row

variable {row : Row} {schema? : Option Schema} {ctx : Interpretation} {atom : Predicate}
  {a : String} {k : Kind}

/-! ## Equal atoms -/

/-- Names of one key that are looked for as they stand find the same. -/
theorem overlooks_of_names {type : CommonType} {label s t : Scalar} (hs : type.Names s)
    (ht : type.Names t) (h : s.key = t.key) : type.Overlooks label s t := by
  cases type with
  | int | double => exact fun _ ↦ hs.trans ht.symm
  | bool =>
    intro _
    cases s <;> cases t <;> first | rfl | exact absurd rfl hs | exact absurd rfl ht | cases h
  | text | mixed => trivial

/-- Equal names name one cell. -/
theorem cell_congr {s t : Scalar} (hs : row.nameType.Names s) (ht : row.nameType.Names t)
    (h : s.key = t.key) : row.cell (.scalar s) = row.cell (.scalar t) := by
  have hfinds : ∀ label, row.nameType.finds label s = row.nameType.finds label t :=
    fun _ ↦ CommonType.finds_congr h (overlooks_of_names hs ht h)
  rw [cell, cell]
  simp only [hfinds]

/-- Equal atoms that can be evaluated are true together. -/
theorem holds_congr {p q : Predicate} {r r' : Bool} (hp : row.Takes schema? p)
    (hq : row.Takes schema? q) (hpm : p.IsMember) (hqm : q.IsMember) (h : p.tag = q.tag)
    (hr : p.holds row = .ok r) (hr' : q.holds row = .ok r') : r = r' := by
  -- both atoms look at one cell
  have hcell : ∀ {a b : Literal}, p.attr? = some a → q.attr? = some b → a.IsScalar → b.IsScalar →
      a.tag = b.tag → row.cell a = row.cell b := by
    rintro _ _ ha hb ⟨s, rfl⟩ ⟨t, rfl⟩ hst
    rw [Literal.tag, Literal.tag, Literal.Tag.key.injEq] at hst
    exact cell_congr (hp.named s ha) (hq.named t hb) hst
  cases p <;> cases q <;> first | exact hpm.elim | exact hqm.elim | cases h | skip
  case bare.bare => exact Except.ok.inj (hr.symm.trans hr')
  case compare.compare a op v b op' w =>
    obtain ⟨hab, rfl, hvw⟩ := Predicate.Tag.compare.inj h
    obtain ⟨ha, s, rfl⟩ := hpm
    obtain ⟨hb, t, rfl⟩ := hqm
    obtain ⟨cell, hc, hr⟩ := bind_eq_ok.1 hr
    obtain ⟨cell', hc', hr'⟩ := bind_eq_ok.1 hr'
    have hp' := hp.meets a cell rfl hc s (List.mem_singleton_self s)
    have hq' := hq.meets b cell' rfl hc' t (List.mem_singleton_self t)
    cases (hcell rfl rfl ha hb hab ▸ hc).symm.trans hc'
    exact Cell.compare_congr hp' hq' (Literal.Tag.key.inj hvw) hr hr'
  case isIn.isIn a vs b ws =>
    obtain ⟨hab, hvw⟩ := Predicate.Tag.isIn.inj h
    obtain ⟨cell, hc, hr⟩ := bind_eq_ok.1 hr
    obtain ⟨cell', hc', hr'⟩ := bind_eq_ok.1 hr'
    have hp' := fun s hs ↦ hp.meets a cell rfl hc s (Predicate.mem_scalars_isIn.2 hs)
    have hq' := fun s hs ↦ hq.meets b cell' rfl hc' s (Predicate.mem_scalars_isIn.2 hs)
    cases (hcell rfl rfl hpm hqm hab ▸ hc).symm.trans hc'
    rw [← Except.ok.inj hr, ← Except.ok.inj hr', Bool.eq_iff_iff, Cell.isIn_eq hp',
      Cell.isIn_eq hq']
    cases hk : cell.key? with
    | none => exact iff_of_false Distinct.not_hasKey_none Distinct.not_hasKey_none
    | some k =>
      rw [Distinct.hasKey_some, Distinct.hasKey_some]
      exact iff_of_eq (congrFun hvw k)
  case between.between a l u li ui b l' u' li' ui' =>
    obtain ⟨hab, hl, hu, rfl, rfl⟩ := Predicate.Tag.between.inj h
    obtain ⟨ha, ⟨s, rfl⟩, t, rfl⟩ := hpm
    obtain ⟨hb, ⟨s', rfl⟩, t', rfl⟩ := hqm
    obtain ⟨cell, hc, hr⟩ := bind_eq_ok.1 hr
    obtain ⟨cell', hc', hr'⟩ := bind_eq_ok.1 hr'
    have hp' := hp.meets a cell rfl hc
    have hq' := hq.meets b cell' rfl hc'
    cases (hcell rfl rfl ha hb hab ▸ hc).symm.trans hc'
    exact Cell.between_congr (hp' s (by simp)) (hq' s' (by simp)) (hp' t (by simp))
      (hq' t' (by simp)) (Literal.Tag.key.inj hl) (Literal.Tag.key.inj hu) hr hr'
  case isNull.isNull a b =>
    obtain ⟨cell, hc, hr⟩ := bind_eq_ok.1 hr
    obtain ⟨cell', hc', hr'⟩ := bind_eq_ok.1 hr'
    cases (hcell rfl rfl hpm hqm (Predicate.Tag.isNull.inj h) ▸ hc).symm.trans hc'
    exact Except.ok.inj (hr.symm.trans hr')
  case test.test t u =>
    rw [← Except.ok.inj hr, ← Except.ok.inj hr', (Predicate.Tag.test.inj h).1]

/-! ## Rows as readings -/

/-- The row has a truth value for the atom, and compares its cell by value. -/
def Knows (row : Row) (schema? : Option Schema) (atom : Predicate) : Prop :=
  (∃ r, atom.holds row = .ok r) ∧ row.Takes schema? atom

/-- The atom is true of the row. -/
def Truth (row : Row) (atom : Predicate) : Prop := atom.holds row = .ok true

/-- The attribute's cell is decided by the scalar, which is a double where numbers are read as such.
The cell is numeric if a predicate with the scalar would make the attribute numeric. -/
structure Compares (row : Row) (schema? : Option Schema) (a : String) (s : Scalar) : Prop where
  decides : (row.cellNamed a).Decides s
  exact : MayBeNumeric schema? a → s.IsExact
  numeric : schema? = none → s.kind? = some .numeric → (row.cellNamed a).IsNumeric

/-- An atom whose scalars decide its cell is compared by value. -/
theorem takes_of_compares (hattr : atom.attr? = some (.text a))
    (h : ∀ s ∈ atom.scalars, row.Compares schema? a s) : row.Takes schema? atom where
  named s hs := by
    cases hattr.symm.trans hs
    exact CommonType.names_text _ a
  exact b hb hnum s hs := by
    cases hattr.symm.trans (attr?_of_named? hb)
    exact (h s hs).exact hnum
  meets b cell hb hcell s hs := by
    cases hattr.symm.trans hb
    cases (row.cell_text a).symm.trans hcell
    exact (h s hs).decides.1
  numeric hschema b hb hnum := by
    cases hattr.symm.trans (attr?_of_named? hb)
    obtain ⟨s, hs, hkind⟩ := hnum
    exact (h s hs).numeric hschema hkind
  decides schema b _ hb _ s hs := by
    cases hattr.symm.trans (attr?_of_named? hb)
    exact (h s hs).decides

/-- A numeric attribute may be compared with any double. -/
theorem compares_double (hcell : (row.cellNamed a).IsNumeric) (x : Double) :
    row.Compares schema? a (.double x) :=
  ⟨hcell.decides (Scalar.isExact_double x) rfl, fun _ ↦ Scalar.isExact_double x, fun _ _ ↦ hcell⟩

/-- An interpreted atom can be evaluated. -/
theorem knows_of_meaning (hrow : row.Suits schema? ctx) (hn : atom.named? = some a)
    (hk : ctx.kind? a = some k) (h : ∀ s ∈ atom.scalars, row.Compares schema? a s)
    {m : Option Value → Prop} (hm : atom.meaning? k = some m) : row.Knows schema? atom := by
  have htakes := takes_of_compares (attr?_of_named? hn) h
  obtain ⟨r, hr, -⟩ := holds_iff_meaning htakes hrow hn hk hm
  exact ⟨⟨r, hr⟩, htakes⟩

theorem truth_iff_meaning (hknows : row.Knows schema? atom) (hrow : row.Suits schema? ctx)
    (hn : atom.named? = some a) (hk : ctx.kind? a = some k) {m : Option Value → Prop}
    (hm : atom.meaning? k = some m) : row.Truth atom ↔ m (row.value ctx a) := by
  obtain ⟨r, hr, hiff⟩ := holds_iff_meaning hknows.2 hrow hn hk hm
  rw [Truth, hr, Except.ok.injEq, hiff]

/-- The values of an interpreted atom may be compared with its attribute. -/
theorem Takes.compares (htakes : row.Takes schema? atom) (hrow : row.Suits schema? ctx)
    (hn : atom.named? = some a) {d : DiscreteValues}
    (h : ctx.values? atom = .ok (some (.discrete d))) :
    ∀ s ∈ d.values.toList, row.Compares schema? a s := by
  intro s hs
  obtain ⟨b, full, hb, hfull, hshape⟩ := Interpretation.values?_eq_some h
  cases hn.symm.trans hb
  obtain ⟨k, hk, -⟩ := Interpretation.full?_eq_some hfull
  have hk' : k ≠ .numeric := by
    rintro rfl
    rw [ValueSet.SameShape, (Interpretation.isNumeric_full hfull).2 hk] at hshape
    cases hshape
  obtain ⟨hfits, t, ls, hls, ht, rfl⟩ := Interpretation.literal_of_mem_values hn hk h s hs
  have hscalars : t ∈ atom.scalars := by
    rw [Predicate.scalars, hls]
    exact List.mem_filterMap.2 ⟨_, ht, rfl⟩
  rw [Kind.fits_plain] at hfits
  exact ⟨(htakes.decides_of_fits hrow hn hk hk' hscalars hfits).plain,
    fun hnum ↦ (htakes.exact a hn hnum t hscalars).plain,
    fun hschema hkind ↦ htakes.numeric hschema a hn ⟨t, hscalars, by cases t <;> exact hkind⟩⟩

/-- An atom on a missing attribute is judged by that. -/
theorem truth_of_missing (hknows : row.Knows schema? atom) (hn : atom.named? = some a)
    (hcell : (row.cellNamed a).value? = none) : row.Truth atom ↔ atom.holdsOfNull = true := by
  obtain ⟨⟨r, hr⟩, -⟩ := hknows
  rw [Truth, hr, Except.ok.injEq]
  have hattr := attr?_of_named? hn
  cases atom with
  | compare b op v =>
    cases hattr
    rw [Predicate.holds, cell_text] at hr
    rw [Cell.compare_of_missing hcell hr]
    rfl
  | isIn b vs =>
    cases hattr
    rw [Predicate.holds, cell_text] at hr
    rw [← Except.ok.inj hr, Cell.isIn, hcell]
    rfl
  | between b l u li ui =>
    cases hattr
    rw [Predicate.holds, cell_text] at hr
    cases (Cell.between_of_missing hcell).symm.trans hr
    rfl
  | isNull b =>
    cases hattr
    rw [Predicate.holds, cell_text] at hr
    rw [← Except.ok.inj hr, Cell.isMissing, hcell]
    rfl
  | _ => cases hattr

/-- What a discrete attribute may be is anything, or what the row's cell is one of. -/
theorem Suits.isOneOf (hrow : row.Suits schema? ctx) {d : DiscreteValues}
    (hfull : ctx.full? a = some (.discrete d)) :
    d = .full none ∨ ∃ domain, d = .full (some domain) ∧ (row.cellNamed a).IsOneOf domain ∧
      schema? ≠ none := by
  obtain ⟨k, hk, hd⟩ := Interpretation.full?_eq_some hfull
  rw [hrow.schema] at hd
  cases hschema : schema? with
  | none =>
    rw [hschema] at hd
    cases k <;> cases hd <;> exact .inl rfl
  | some schema =>
    rw [hschema] at hd
    have hrow' := hrow.conforms schema hschema a
    rw [Interpretation.kind?, hrow.schema, hschema] at hk
    dsimp only at hk
    rw [hk] at hrow'
    cases k with
    | numeric => cases hd
    | string =>
      cases hd
      exact .inl rfl
    | boolean | categorical =>
      cases hd
      exact .inr ⟨_, rfl, hrow', Option.some_ne_none _⟩

theorem mem_full (hrow : row.Suits schema? ctx) {full : ValueSet}
    (hfull : ctx.full? a = some full) : full.Mem (row.value ctx a) := by
  cases full with
  | numeric ns =>
    obtain ⟨k, hk, hns⟩ := Interpretation.full?_eq_some hfull
    cases k <;> cases hns
    exact NumericValues.mem_full _
  | discrete d =>
    have hk : ctx.kind? a ≠ some .numeric := fun h ↦ by
      cases (Interpretation.isNumeric_full hfull).2 h
    rcases hrow.isOneOf hfull with rfl | ⟨domain, rfl, ⟨hcell, -⟩, -⟩
    · exact DiscreteValues.mem_everything _
    · refine (DiscreteValues.mem_full_some _ _).2 ?_
      intro k hkey
      obtain ⟨v, hv, rfl⟩ := Option.map_eq_some_iff.1 hkey
      have hbind := row.value_key? hk
      rw [hv, Option.bind_some] at hbind
      rcases hcell with hnone | hcell
      · rw [value, if_neg hk, hnone] at hv
        cases hv
      · rwa [hbind]

theorem Suits.compares_domain (hrow : row.Suits schema? ctx) {d : DiscreteValues}
    (hfull : ctx.full? a = some (.discrete d)) :
    ∀ s ∈ d.values.toList, row.Compares schema? a s := by
  intro s hs
  rcases hrow.isOneOf hfull with rfl | ⟨domain, rfl, hcell, hschema⟩
  · exact absurd hs (Distinct.not_mem_empty s)
  · have hk : ctx.kind? a ≠ some .numeric := fun h ↦ by
      cases (Interpretation.isNumeric_full hfull).2 h
    exact ⟨hcell.2 s hs, fun h ↦ absurd (hrow.kind?_of_mayBeNumeric hschema h) hk,
      fun h ↦ absurd h hschema⟩

/-- An atom that has a value set is true if the cell is in it. -/
theorem truth_of_values (hknows : row.Knows schema? atom) (hrow : row.Suits schema? ctx)
    (hn : atom.named? = some a) {vs : ValueSet} (h : ctx.values? atom = .ok (some vs)) :
    row.Truth atom ↔ vs.Mem (row.value ctx a) := by
  obtain ⟨k, m, hk, hm, hmem⟩ := Interpretation.exists_meaning?_of_values hn h
  rw [truth_iff_meaning hknows hrow hn hk hm, hmem]

/-- What is missing by the schema is missing in a row that conforms to it. -/
theorem Suits.value?_of_isMissing (hrow : row.Suits schema? ctx) (h : ctx.isMissing a = true) :
    (row.cellNamed a).value? = none := by
  obtain ⟨schema, hschema, hhas⟩ := (Option.any_eq_true _ _).1 h
  have hrow' := hrow.conforms schema (hrow.schema.symm.trans hschema) a
  have hkind : schema.kind? a = none := by simpa [Schema.has] using hhas
  rwa [hkind] at hrow'

section written

variable {s : Scalar} {vs : Distinct Scalar}

theorem holds_compare (op : Comparison) : (Predicate.compare (.text a) op (.scalar s)).holds row =
    (row.cellNamed a).compare op (.scalar s) := by
  rw [Predicate.holds, cell_text]
  rfl

theorem holds_isIn : (Predicate.isIn (.text a) vs).holds row =
    .ok ((row.cellNamed a).isIn vs) := by
  rw [Predicate.holds, cell_text]
  rfl

theorem knows_compare {op : Comparison} (hs : row.Compares schema? a s) {r : Bool}
    (hr : (row.cellNamed a).compare op (.scalar s) = .ok r) :
    row.Knows schema? (.compare (.text a) op (.scalar s)) :=
  ⟨⟨r, (holds_compare op).trans hr⟩,
    takes_of_compares rfl fun _ ht ↦ List.mem_singleton.1 ht ▸ hs⟩

theorem knows_isIn (hvs : ∀ s ∈ vs.toList, row.Compares schema? a s) :
    row.Knows schema? (.isIn (.text a) vs) :=
  ⟨⟨_, holds_isIn⟩, takes_of_compares rfl fun s hs ↦ hvs s (Predicate.mem_scalars_isIn.1 hs)⟩

theorem truth_compare {op : Comparison} {r : Bool}
    (hr : (row.cellNamed a).compare op (.scalar s) = .ok r) :
    row.Truth (.compare (.text a) op (.scalar s)) ↔ r = true := by
  rw [Truth, holds_compare, hr, Except.ok.injEq]

theorem truth_isIn : row.Truth (.isIn (.text a) vs) ↔ (row.cellNamed a).isIn vs = true := by
  rw [Truth, holds_isIn, Except.ok.injEq]

end written

/-- **A row is something that predicates can be about.** -/
noncomputable def reading (row : Row) (hrow : row.Suits schema? ctx) : Reading ctx where
  value := row.value ctx
  Knows := row.Knows schema?
  truth := row.Truth
  Compares := row.Compares schema?
  full_mem h := mem_full hrow h
  compares_domain h := hrow.compares_domain h
  truth_of_isMissing hknows hn hmiss := truth_of_missing hknows hn (hrow.value?_of_isMissing hmiss)
  truth_of_values hknows hn h := truth_of_values hknows hrow hn h
  compares_values hknows hn h := hknows.2.compares hrow hn h
  truth_congr := by
    rintro p q ⟨⟨r, hr⟩, hp⟩ ⟨⟨r', hr'⟩, hq⟩ hpm hqm - - h
    rw [Truth, Truth, hr, hr', holds_congr hp hq hpm hqm h hr hr']
  knows_isNull := by
    intro a k hk
    exact knows_of_meaning hrow rfl hk (by simp) rfl
  knows_compare := by
    intro a hk op x
    refine knows_of_meaning hrow rfl hk ?_ rfl
    intro s hs
    rw [List.mem_singleton.1 hs]
    exact compares_double (hrow.numeric a hk) x
  knows_isIn := by
    intro a hk vs hvs
    refine knows_isIn ?_
    intro s hs
    obtain ⟨x, rfl⟩ := hvs s hs
    exact compares_double (hrow.numeric a hk) x
  knows_between := by
    intro a hk l h li hi
    refine knows_of_meaning hrow rfl hk ?_ rfl
    intro s hs
    simp only [Predicate.scalars_between, List.mem_cons, List.not_mem_nil, or_false] at hs
    rcases hs with rfl | rfl <;> exact compares_double (hrow.numeric a hk) _
  truth_eq := by
    intro a k s hk hk' hs
    have hr := Cell.compare_eq hs.1
    refine ⟨knows_compare hs hr, (truth_compare hr).trans ?_⟩
    rw [decide_eq_true_iff, row.value_key? (by rw [hk]; exact fun h ↦ hk' (Option.some.inj h))]
  truth_ne := by
    intro a k s hk hk' hs
    have hr := Cell.compare_ne hs.1
    refine ⟨knows_compare hs hr, (truth_compare hr).trans ?_⟩
    rw [decide_eq_true_iff, row.value_key? (by rw [hk]; exact fun h ↦ hk' (Option.some.inj h))]
  truth_isIn := by
    intro a k vs hk hk' hvs
    refine ⟨knows_isIn hvs, truth_isIn.trans ?_⟩
    rw [Cell.isIn_eq fun s hs ↦ (hvs s hs).1.1,
      row.value_key? (by rw [hk]; exact fun h ↦ hk' (Option.some.inj h))]

end Row

end RuleCoverage
