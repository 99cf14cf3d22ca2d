import RuleCoverage.Proofs.NormalForm.Contradictions
import RuleCoverage.Proofs.NormalForm.RowMeaning
import RuleCoverage.Proofs.NormalForm.Totality
import RuleCoverage.Proofs.NormalForm.Uniform

/-!
# Predicates on categories

A predicate that compares categorical attributes with their categories is simplified to `never` if
and only if there is no choice of categories that makes it true, as long as none of its literals is
a boolean (`Predicate.exists_simplify_eq_never_iff_of_categories`).  There may be booleans among the
categories.

A boolean is a category like any other for the schema, but it does not fit the kind of the
attribute, and what is said of it is not interpreted (`Predicate.simplify_oneWayAndReversed`).

## What is here

* `Row.HasCategories` — rows that have for each categorical attribute a category or nothing.
* `Schema.Choice` — a category, or nothing, for each categorical attribute, and what can be said of
  it.
* `Predicate.expand_eq_nil_iff_choice` — an expansion is empty if no choice makes the predicate
  true.
-/

set_option autoImplicit false

namespace RuleCoverage

variable {schema : Schema} {a : String} {s : Scalar} {k : Kind} {p q atom : Predicate} {row : Row}
  {effort : Effort}

/-- The cell holds one of the scalars or nothing, and it is compared as it is. -/
def Cell.HoldsOneOf (cell : Cell) (values : Distinct Scalar) : Prop :=
  cell.column = .mixed ∧ ∀ v, cell.value? = some v → ∃ s ∈ values.toList, v = .scalar s

/-- The row has for each categorical attribute one of its categories or nothing. -/
def Row.HasCategories (row : Row) (schema : Schema) : Prop :=
  ∀ a, schema.kind? a = some .categorical →
    (row.cellNamed a).HoldsOneOf (schema.categoriesOf a)

/-- No category stands for a missing value. -/
def Schema.HasPresentCategories (schema : Schema) : Prop :=
  ∀ a, ∀ s ∈ (schema.categoriesOf a).toList, ¬ s.IsMissing

namespace Predicate

/-- The atom asks whether a categorical attribute is missing, or which of its categories it is. -/
inductive AsksForCategory (schema : Schema) : Predicate → Prop
  | isNull (a : String) (hk : schema.kind? a = some .categorical) :
      AsksForCategory schema (.isNull (.text a))
  | eq (a : String) (s : Scalar) (hk : schema.kind? a = some .categorical)
      (hs : (schema.categoriesOf a).contains s = true) :
      AsksForCategory schema (.compare (.text a) .eq (.scalar s))
  | ne (a : String) (s : Scalar) (hk : schema.kind? a = some .categorical)
      (hs : (schema.categoriesOf a).contains s = true) :
      AsksForCategory schema (.compare (.text a) .ne (.scalar s))
  | isIn (a : String) (values : Distinct Scalar) (hk : schema.kind? a = some .categorical)
      (hs : ∀ s ∈ values.toList, (schema.categoriesOf a).contains s = true) :
      AsksForCategory schema (.isIn (.text a) values)

/-- No literal of the atom is a boolean. -/
def NamesNoBoolean (atom : Predicate) : Prop := ∀ s ∈ atom.scalars, s.kind? ≠ some .boolean

end Predicate

/-! ## Choices of categories -/

/-- What a tag says of the keys of attributes, if it says which one an attribute has. -/
def Predicate.Tag.SaysOf (key? : String → Option Scalar.Key) : Predicate.Tag → Prop
  | .compare (.key (.text a)) .eq (.key k) => key? a = some k
  | .compare (.key (.text a)) .ne (.key k) => key? a ≠ some k
  | .isIn (.key (.text a)) keys => ∃ k, keys k ∧ some k = key? a
  | _ => False

/-- A category, or nothing, for each categorical attribute, and nothing for the other ones. -/
structure Schema.Choice (schema : Schema) where
  category : String → Option Scalar
  allowed : ∀ {a s}, category a = some s →
    schema.kind? a = some .categorical ∧ s ∈ (schema.categoriesOf a).toList

namespace Schema.Choice

instance : Inhabited schema.Choice := ⟨⟨fun _ ↦ none, fun h ↦ by cases h⟩⟩

variable (c : schema.Choice)

/-- The key of the category of an attribute. -/
def key? (a : String) : Option Scalar.Key := (c.category a).map Scalar.key

/-- The choice as an assignment, under which an atom is true that says which category is chosen,
even if the schema does not interpret it. -/
def assignment : Assignment schema where
  value a := (c.category a).map fun s ↦ .literal (.scalar s)
  allowed := by
    intro a
    cases h : c.category a with
    | none => trivial
    | some s =>
      rw [Option.map_some, Allows, (c.allowed h).1]
      exact ⟨s, (c.allowed h).2, rfl⟩
  free p := p.tag.SaysOf c.key?
  free_congr h := by rw [Predicate.tag_eq_of_beq h]

theorem value_key? (a : String) : (c.assignment.value a).bind Value.key? = c.key? a := by
  rw [key?, assignment]
  dsimp only
  cases c.category a <;> rfl

theorem truth_isNull (hk : schema.kind? a = some k) :
    c.assignment.truth (.isNull (.text a)) ↔ c.category a = none := by
  rw [c.assignment.truth_of_meaning rfl hk rfl, assignment]
  exact Option.map_eq_none_iff

/-- An atom is true that says which category is chosen, whether it is interpreted or not. -/
theorem truth_eq (hk : schema.kind? a = some k) (hnum : k ≠ .numeric) (s : Scalar) :
    c.assignment.truth (.compare (.text a) .eq (.scalar s)) ↔ c.key? a = some s.key := by
  by_cases hfits : k.fits s = true
  · rw [c.assignment.truth_of_meaning rfl hk (Predicate.meaning?_eq hnum hfits), c.value_key?]
  · refine c.assignment.truth_of_meaningless rfl hk ?_
    rw [Predicate.meaning?_discrete (by simp) hnum, Predicate.discreteMeaning?, if_neg hfits]
    rfl

theorem truth_ne (hk : schema.kind? a = some k) (hnum : k ≠ .numeric) (s : Scalar) :
    c.assignment.truth (.compare (.text a) .ne (.scalar s)) ↔ c.key? a ≠ some s.key := by
  by_cases hfits : k.fits s = true
  · rw [c.assignment.truth_of_meaning rfl hk (Predicate.meaning?_ne hnum hfits), c.value_key?]
  · refine c.assignment.truth_of_meaningless rfl hk ?_
    rw [Predicate.meaning?_discrete (by simp) hnum, Predicate.discreteMeaning?, if_neg hfits]
    rfl

theorem truth_isIn (hk : schema.kind? a = some k) (hnum : k ≠ .numeric) (vs : Distinct Scalar) :
    c.assignment.truth (.isIn (.text a) vs) ↔ vs.HasKey (c.key? a) := by
  by_cases hfits : ∀ s ∈ vs.toList, k.fits s = true
  · rw [c.assignment.truth_of_meaning rfl hk (Predicate.meaning?_isIn hnum hfits), c.value_key?]
    exact exists_congr fun s ↦ and_congr_right fun _ ↦ eq_comm
  · refine (c.assignment.truth_of_meaningless rfl hk ?_).trans ?_
    · rw [Predicate.meaning?_discrete (by simp) hnum, Predicate.discreteMeaning?,
        if_neg (mt List.all_eq_true.1 hfits)]
      rfl
    · show (∃ k, (∃ s ∈ vs.toList, s.key = k) ∧ some k = c.key? a) ↔ _
      simp only [Distinct.HasKey, exists_exists_and_eq_and]

/-- A choice of categories is something that predicates can be about, and any scalar may be compared
with its attributes. -/
def reading : Reading schema.interpretation where
  value := c.assignment.value
  Knows _ := True
  truth := c.assignment.truth
  Compares _ _ := True
  full_mem h := (c.assignment.allowed _).mem_full h
  compares_domain _ _ _ := trivial
  truth_of_isMissing _ hn hmiss := c.assignment.truth_of_outside hn (isMissing_iff.1 hmiss)
  truth_of_values _ hn h := c.assignment.truth_of_values hn h
  compares_values _ _ _ _ _ := trivial
  truth_congr _ _ hp hq hvp hvq h := c.assignment.truth_congr hp hq hvp hvq h
  knows_isNull _ := trivial
  knows_compare _ _ _ := trivial
  knows_isIn _ _ _ := trivial
  knows_between _ _ _ _ _ := trivial
  truth_eq hk hnum _ := ⟨trivial, by rw [c.value_key?]; exact c.truth_eq hk hnum _⟩
  truth_ne hk hnum _ := ⟨trivial, by rw [c.value_key?]; exact c.truth_ne hk hnum _⟩
  truth_isIn hk hnum _ := ⟨trivial, by rw [c.value_key?]; exact c.truth_isIn hk hnum _⟩

end Schema.Choice

/-! ## A term holds of some choice -/

namespace Predicate

theorem AsksForCategory.kind? (h : atom.AsksForCategory schema) (hn : atom.named? = some a) :
    schema.kind? a = some .categorical := by
  cases h <;> cases hn <;> assumption

theorem not_isMissing_of_contains (hcat : schema.HasPresentCategories)
    (hs : (schema.categoriesOf a).contains s = true) : ¬ s.IsMissing := by
  obtain ⟨t, ht, hkey⟩ :=
    (Distinct.contains_iff Scalar.decidedBy_key (fun _ _ ↦ trivial) trivial).1 hs
  exact fun h ↦ hcat a t ht ((Scalar.isMissing_congr hkey).2 h)

/-- A category that is no boolean fits. -/
theorem fits_of_contains (hcat : schema.HasPresentCategories)
    (hs : (schema.categoriesOf a).contains s = true) (hbool : s.kind? ≠ some .boolean) :
    Kind.categorical.fits s = true := by
  have hmiss := not_isMissing_of_contains hcat hs
  cases s <;> first | rfl | exact absurd rfl hmiss | exact absurd rfl hbool

/-- An atom that asks for categories, none of them a boolean, is interpreted. -/
theorem AsksForCategory.exists_meaning? (h : atom.AsksForCategory schema)
    (hcat : schema.HasPresentCategories) (hbool : atom.NamesNoBoolean) :
    ∃ m, atom.meaning? .categorical = some m := by
  have hdiscrete : Kind.categorical ≠ .numeric := by decide
  cases h with
  | isNull a hk => exact ⟨_, rfl⟩
  | eq a s hk hs => exact ⟨_, meaning?_eq hdiscrete (fits_of_contains hcat hs (hbool s (by simp)))⟩
  | ne a s hk hs => exact ⟨_, meaning?_ne hdiscrete (fits_of_contains hcat hs (hbool s (by simp)))⟩
  | isIn a values hk hs =>
    refine ⟨_, meaning?_isIn hdiscrete fun s hmem ↦ fits_of_contains hcat (hs s hmem) ?_⟩
    exact hbool s (mem_scalars_isIn.2 hmem)

end Predicate

/-- The term demands nothing but categories. -/
structure Term.OnCategories (schema : Schema) (t : Term) : Prop where
  constraints : ∀ c ∈ t.constraints, schema.kind? c.1 = some .categorical
  literals : ∀ l, l ∉ t.literals.toList

/-- The terms of a predicate on categories demand nothing but categories. -/
theorem Predicate.onCategories_expand (hcat : schema.HasPresentCategories)
    (hp : p.AllAtoms fun atom ↦ atom.AsksForCategory schema ∧ atom.NamesNoBoolean) {ts : List Term}
    (h : p.expand schema.interpretation false = .ok ts) : ∀ t ∈ ts, t.OnCategories schema := by
  refine forall_expand ⟨List.forall_mem_nil _, fun _ ↦ List.not_mem_nil⟩ ?_ ?_ ?_ p hp h
  · intro atom negated ts _ hatom h
    refine forall_expandAtom ⟨List.forall_mem_nil _, fun _ ↦ List.not_mem_nil⟩ ?_ ?_ h
    · intro a full vs hn _ _ _ _ _
      exact ⟨List.forall_mem_singleton.2 (hatom.1.kind? hn), fun _ ↦ List.not_mem_nil⟩
    · -- no atom is opaque
      intro hvs _
      obtain ⟨a, hn⟩ : ∃ a, atom.named? = some a := by
        cases hatom.1 <;> exact ⟨_, rfl⟩
      obtain ⟨m, hm⟩ := hatom.1.exists_meaning? hcat hatom.2
      have hk : schema.interpretation.kind? a = some .categorical := hatom.1.kind? hn
      cases hm.symm.trans (Interpretation.meaning?_eq_none hn hk hvs)
  · intro s t u hs ht hu
    exact ⟨Term.forall_conjoin? (C := fun a _ ↦ schema.kind? a = some .categorical)
      (fun h _ _ ↦ h) hs.constraints ht.constraints hu,
      Term.forall_literals_conjoin? hs.literals ht.literals hu⟩
  · intro s t m hs ht hm
    exact ⟨Term.forall_merge? (C := fun a _ ↦ schema.kind? a = some .categorical)
      (fun h _ _ ↦ h) hs.constraints ht.constraints hm,
      Term.forall_literals_merge? hs.literals ht.literals hm⟩

/-- A demand on a categorical attribute is met by a category or by nothing. -/
theorem ValueSet.Demand.exists_category {r : Reading schema.interpretation} {vs : ValueSet}
    (h : vs.Demand r a) (hk : schema.kind? a = some .categorical) :
    ∃ s? : Option Scalar, (∀ s, s? = some s → s ∈ (schema.categoriesOf a).toList) ∧
      vs.Mem (s?.map fun s ↦ .literal (.scalar s)) := by
  have hfull := Schema.full?_discrete hk (by decide)
  obtain ⟨full, hfull', hshape⟩ := h.full
  cases hfull.symm.trans hfull'
  cases vs with
  | numeric ns => cases hshape
  | discrete d =>
    obtain ⟨_ | v, hv⟩ := h.nonempty
    · exact ⟨none, (fun _ h ↦ by cases h), hv⟩
    · obtain ⟨s, hs, hmem⟩ := DiscreteValues.exists_scalar (h.within _ hfull _ hv) hv
      exact ⟨some s, fun t ht ↦ Option.some.inj ht ▸ hs, hmem⟩

/-- **A term in good order that demands nothing but categories holds of some choice of them.** -/
theorem Term.Valid.exists_choice {r : Reading schema.interpretation} {t : Term} (ht : t.Valid r)
    (hcats : t.OnCategories schema) : ∃ c : schema.Choice, t.Sat c.reading := by
  have hcategory : ∀ a, ∃ s? : Option Scalar, (∀ s, s? = some s →
      schema.kind? a = some .categorical ∧ s ∈ (schema.categoriesOf a).toList) ∧
      ∀ vs, (a, vs) ∈ t.constraints → vs.Mem (s?.map fun s ↦ .literal (.scalar s)) := by
    intro a
    by_cases h : ∃ vs, (a, vs) ∈ t.constraints
    · obtain ⟨vs, hvs⟩ := h
      have hk := hcats.constraints _ hvs
      obtain ⟨s?, hs, hmem⟩ := (ht.constraints.demands _ hvs).exists_category hk
      refine ⟨s?, fun s h ↦ ⟨hk, hs s h⟩, fun ws hws ↦ ?_⟩
      have h' := Dictionary.get?_of_mem ht.constraints.ascending hvs
      cases h'.symm.trans (Dictionary.get?_of_mem ht.constraints.ascending hws)
      exact hmem
    · exact ⟨none, (fun _ h ↦ by cases h), fun vs hvs ↦ absurd ⟨vs, hvs⟩ h⟩
  choose category hallowed hmem using hcategory
  exact ⟨⟨category, fun {a s} h ↦ hallowed a s h⟩, fun c hc ↦ hmem c.1 c.2 hc,
    fun l hl ↦ absurd hl (hcats.literals l)⟩

namespace Predicate

/-! ## Contradictions -/

/-- The expansion of a predicate on categories is empty exactly when no choice of them makes it
true. -/
theorem expand_eq_nil_iff_choice (hcat : schema.HasPresentCategories)
    (hp : p.AllAtoms fun atom ↦ atom.AsksForCategory schema ∧ atom.NamesNoBoolean) {ts : List Term}
    (h : p.expand schema.interpretation false = .ok ts) :
    ts = [] ↔ ¬ ∃ c : schema.Choice, p.IsTrue c.assignment.truth := by
  have hspec := fun c : schema.Choice ↦ expand_spec (r := c.reading) p (allAtoms_true p) h
  constructor
  · rintro rfl ⟨c, hc⟩
    obtain ⟨t, ht, -⟩ := (hspec c).2.2 (iff_of_true hc rfl)
    cases ht
  · intro hun
    by_contra hne
    obtain ⟨t, ht⟩ := List.exists_mem_of_ne_nil ts hne
    obtain ⟨c, hc⟩ := ((hspec default).1 t ht).exists_choice (onCategories_expand hcat hp h t ht)
    exact hun ⟨c, ((hspec c).2.1 ⟨t, ht, hc⟩).2 rfl⟩

/-- Simplification keeps the meaning for every choice of categories, also where it does not
interpret what is said of them. -/
theorem isTrue_simplify_choice (c : schema.Choice) (h : p.simplify (some schema) effort = .ok q) :
    q.IsTrue c.assignment.truth ↔ p.IsTrue c.assignment.truth := by
  have hself : p.IsTrue c.assignment.truth ↔ p.IsTrue c.assignment.truth := Iff.rfl
  refine settle_induction
    (P := fun x ↦ x.IsTrue c.assignment.truth ↔ p.IsTrue c.assignment.truth) ?_ (by simp) hself h
  intro x y hx hy
  exact (writes_simplifyOnce (r := c.reading) rfl (allAtoms_true x) hy).2.trans hx

end Predicate

/-! ## Rows of categories -/

/-- The row has what is chosen for the attribute. -/
def Schema.Choice.Describes (c : schema.Choice) (row : Row) (a : String) : Prop :=
  row.cellNamed a = ⟨.mixed, (c.category a).map .scalar⟩

namespace Cell

variable {s? : Option Scalar}

/-- What is kept as it is equals a scalar that has its key. -/
theorem equals_kept (hs : ¬ s.IsMissing) : (⟨.mixed, s?.map .scalar⟩ : Cell).equals (.scalar s) =
    .ok (some (decide (s?.map Scalar.key = some s.key))) := by
  cases s? with
  | none => rfl
  | some t =>
    refine (if_neg hs).trans ?_
    simp only [Option.map_some, Option.some.injEq]
    rfl

theorem isIn_kept {vs : Distinct Scalar} : (⟨.mixed, s?.map .scalar⟩ : Cell).isIn vs = true ↔
    vs.HasKey (s?.map Scalar.key) := by
  cases s? with
  | none => exact iff_of_false Bool.false_ne_true Distinct.not_hasKey_none
  | some t =>
    show vs.toList.any (t == ·) = true ↔ _
    rw [List.any_eq_true, Option.map_some, Distinct.hasKey_some]
    exact exists_congr fun s ↦ and_congr_right fun _ ↦ (Scalar.beq_iff_key t s).trans eq_comm

end Cell

/-- An atom that asks for categories is as true of a row as of the choice that describes it. -/
theorem Predicate.AsksForCategory.holds_iff {c : schema.Choice} (h : atom.AsksForCategory schema)
    (hcat : schema.HasPresentCategories)
    (hrow : ∀ a, atom.named? = some a → c.Describes row a) :
    ∃ r, atom.holds row = .ok r ∧ (r = true ↔ c.assignment.truth atom) := by
  have hdiscrete : Kind.categorical ≠ .numeric := by decide
  cases h with
  | isNull a hk =>
    refine ⟨_, by rw [holds, Row.cell_text, hrow a rfl]; rfl, ?_⟩
    rw [c.truth_isNull hk, Cell.isMissing, Option.isNone_iff_eq_none, Option.map_eq_none_iff]
  | eq a s hk hs =>
    have hpresent := not_isMissing_of_contains hcat hs
    refine ⟨_, by
      rw [Row.holds_compare, hrow a rfl, Cell.compare_eq_scalar, Cell.equals_kept hpresent]
      rfl, ?_⟩
    rw [c.truth_eq hk hdiscrete, Option.getD_some, decide_eq_true_iff]
    rfl
  | ne a s hk hs =>
    have hpresent := not_isMissing_of_contains hcat hs
    refine ⟨_, by
      rw [Row.holds_compare, hrow a rfl, Cell.compare_ne_scalar, Cell.equals_kept hpresent]
      rfl, ?_⟩
    rw [c.truth_ne hk hdiscrete, Option.map_some, Option.getD_some, Bool.not_eq_true',
      decide_eq_false_iff_not]
    rfl
  | isIn a values hk hs =>
    refine ⟨_, Row.holds_isIn, ?_⟩
    rw [hrow a rfl, c.truth_isIn hk hdiscrete]
    exact Cell.isIn_kept

namespace Row

/-- What a row of categories chooses. -/
def choice (row : Row) (hrow : row.HasCategories schema) : schema.Choice where
  category a := if schema.kind? a = some .categorical then
      (row.cellNamed a).value?.bind Literal.scalar? else none
  allowed := by
    intro a s h
    split at h
    · rename_i hk
      obtain ⟨v, hv, hs⟩ := Option.bind_eq_some_iff.1 h
      obtain ⟨t, ht, rfl⟩ := (hrow a hk).2 v hv
      cases hs
      exact ⟨hk, ht⟩
    · cases h

theorem choice_describes (hrow : row.HasCategories schema)
    (hk : schema.kind? a = some .categorical) :
    (row.choice hrow).Describes row a := by
  rw [Schema.Choice.Describes, choice]
  dsimp only
  rw [if_pos hk]
  obtain ⟨hcolumn, hvalue⟩ := hrow a hk
  cases hcell : row.cellNamed a with
  | mk column value? =>
    rw [hcell] at hcolumn hvalue
    cases hcolumn
    cases value? with
    | none => rfl
    | some v =>
      obtain ⟨s, -, rfl⟩ := hvalue v rfl
      rfl

/-- The row of the chosen categories. -/
def ofChoice (attrs : List String) (c : schema.Choice) : Row :=
  ofCells attrs (fun a ↦ ⟨.mixed, (c.category a).map .scalar⟩) fun _ ↦ false

theorem hasCategories_ofChoice (attrs : List String) (c : schema.Choice) :
    (ofChoice attrs c).HasCategories schema := by
  intro a hk
  rw [ofChoice, cellNamed_ofCells]
  split
  · refine ⟨rfl, fun v hv ↦ ?_⟩
    obtain ⟨s, hs, rfl⟩ := Option.map_eq_some_iff.1 hv
    exact ⟨s, (c.allowed hs).2, rfl⟩
  · exact ⟨rfl, fun _ hv ↦ by cases hv⟩

end Row

namespace Predicate

/-- A predicate on categories is as true of a row as of the choice that describes it. -/
theorem holds_iff_choice {c : schema.Choice} (hcat : schema.HasPresentCategories)
    (hp : p.AllAtoms (AsksForCategory schema)) (hrow : ∀ a, p.Names a → c.Describes row a) :
    p.holds row = .ok true ↔ p.IsTrue c.assignment.truth := by
  have hatoms : p.AllAtoms fun atom ↦ ∃ r, atom.holds row = .ok r ∧
      (r = true ↔ c.assignment.truth atom) := by
    rw [allAtoms_iff] at hp ⊢
    exact fun atom hatom hisAtom ↦
      (hp atom hatom hisAtom).holds_iff hcat fun a hn ↦ hrow a ⟨atom, hatom, hn⟩
  obtain ⟨r, hr, hiff⟩ := Row.holds_iff_isTrue (hatoms.imp fun _ ↦ .imp fun _ h ↦ h.1)
  rw [hr, Except.ok.injEq, hiff]
  refine isTrue_congr (hatoms.imp fun atom h ↦ ?_)
  obtain ⟨t, ht, htrue⟩ := h
  rw [Row.Truth, ht, Except.ok.injEq, htrue]

/-- A row of categories makes a predicate true if and only if some choice of them does. -/
theorem exists_row_iff_choice (hcat : schema.HasPresentCategories)
    (hp : p.AllAtoms (AsksForCategory schema)) :
    (∃ row : Row, row.HasCategories schema ∧ p.holds row = .ok true) ↔
      ∃ c : schema.Choice, p.IsTrue c.assignment.truth := by
  have hkind : ∀ a, p.Names a → schema.kind? a = some .categorical := by
    rintro a ⟨atom, hatom, hn⟩
    have hisAtom : atom.IsAtom := by cases atom <;> trivial
    exact ((allAtoms_iff p).1 hp atom hatom hisAtom).kind? hn
  constructor
  · rintro ⟨row, hrow, htrue⟩
    exact ⟨row.choice hrow, (holds_iff_choice hcat hp fun a ha ↦
      Row.choice_describes hrow (hkind a ha)).1 htrue⟩
  · rintro ⟨c, hc⟩
    refine ⟨.ofChoice p.attributes.toList c, Row.hasCategories_ofChoice _ c, ?_⟩
    refine (holds_iff_choice hcat hp fun a ha ↦ ?_).2 hc
    rw [Schema.Choice.Describes, Row.ofChoice, Row.cellNamed_ofCells, if_pos (mem_attributes.2 ha)]

theorem AsksForCategory.readable (h : atom.AsksForCategory schema) :
    atom.Readable (some schema) := by
  refine ⟨by cases h <;> first | exact ⟨_, rfl⟩ | exact ⟨⟨_, rfl⟩, _, rfl⟩, ?_⟩
  -- a categorical attribute is not read as a number
  intro a hn hnumeric
  cases (h.kind? hn).symm.trans (hnumeric schema rfl)

/-- **A predicate on categories is simplified to `never` exactly when no row of categories makes it
true**, unless it names a boolean. -/
theorem exists_simplify_eq_never_iff_of_categories (effort : Effort)
    (hcat : schema.HasPresentCategories) (hp : p.AllAtoms (AsksForCategory schema))
    (hbool : p.AllAtoms NamesNoBoolean) :
    ∃ q, p.simplify (some schema) effort = .ok q ∧
      (q = .never ↔ ¬ ∃ row : Row, row.HasCategories schema ∧ p.holds row = .ok true) := by
  have hreadable : p.AllAtoms (Readable (some schema)) := hp.imp fun _ h ↦ h.readable
  have hatoms : p.AllAtoms fun atom ↦ atom.AsksForCategory schema ∧ atom.NamesNoBoolean := by
    rw [allAtoms_iff] at hp hbool ⊢
    exact fun atom hatom hisAtom ↦ ⟨hp atom hatom hisAtom, hbool atom hatom hisAtom⟩
  obtain ⟨q, hq⟩ := exists_simplify effort hreadable
  have hschema : schema.interpretation.schema? = some schema := rfl
  obtain ⟨ts, hts⟩ := exists_expand hreadable hschema false
  refine ⟨q, hq, ?_⟩
  rw [exists_row_iff_choice hcat hp]
  constructor
  · rintro rfl ⟨c, hc⟩
    exact (isTrue_simplify_choice c hq).2 hc
  · intro hun
    cases (expand_eq_nil_iff_choice hcat hatoms hts).2 hun
    exact simplify_of_expand_nil rfl hts hq

/-- A lake is no river, where there is a boolean among the classes too. -/
theorem not_exists_lake_and_river :
    ¬ ∃ row : Row,
      row.HasCategories
        (.ofCategories "class" (.ofList [.text "river", .text "lake", .bool true])) ∧
      (and (compare (.text "class") .eq (.text "lake"))
        (compare (.text "class") .eq (.text "river"))).holds row = .ok true := by
  let classes : Distinct Scalar := .ofList [.text "river", .text "lake", .bool true]
  have hclasses : (Schema.ofCategories "class" classes).HasPresentCategories := by
    intro a s hs
    rw [Schema.categoriesOf, Schema.ofCategories, Dictionary.get?] at hs
    split at hs
    · have hs' := Distinct.mem_of_mem_ofList hs
      simp only [List.mem_cons, List.not_mem_nil, or_false] at hs'
      rcases hs' with rfl | rfl | rfl <;> exact Bool.false_ne_true
    · exact absurd hs (Distinct.not_mem_empty s)
  obtain ⟨q, hq, hiff⟩ := exists_simplify_eq_never_iff_of_categories {} hclasses
    (p := and (compare (.text "class") .eq (.text "lake"))
      (compare (.text "class") .eq (.text "river")))
    ⟨.eq _ _ rfl (by decide +kernel), .eq _ _ rfl (by decide +kernel)⟩
    ⟨fun s hs ↦ by rw [List.mem_singleton.1 hs]; decide,
      fun s hs ↦ by rw [List.mem_singleton.1 hs]; decide⟩
  have hnever : (and (compare (.text "class") .eq (.text "lake"))
      (compare (.text "class") .eq (.text "river"))).simplify
        (some (Schema.ofCategories "class" classes)) {} = .ok .never :=
    eq_ok_never (by decide +kernel)
  exact hiff.1 (Except.ok.inj (hq.symm.trans hnever))

/-- What says that a road is open in one direction, which may be against its own. -/
def oneWayCategories : Schema := .ofCategories "oneway" (.ofList [.bool true, .text "reversed"])

/-- That a road is open in its own direction only and in the other one only. -/
def oneWayAndReversed : Predicate :=
  .and (.compare (.text "oneway") .eq (.text "reversed"))
    (.compare (.text "oneway") .eq (.bool true))

/-- **A boolean is a category that is not reasoned about.**  No row has two categories for one
attribute, but a predicate that asks for both is not found out if one of them is a boolean. -/
theorem simplify_oneWayAndReversed :
    (∃ q, oneWayAndReversed.simplify (some oneWayCategories) {} = .ok q ∧ q ≠ .never) ∧
    oneWayAndReversed.AllAtoms (AsksForCategory oneWayCategories) ∧
    ∀ row : Row, row.HasCategories oneWayCategories →
      oneWayAndReversed.holds row = .ok false := by
  refine ⟨?_, ⟨.eq _ _ rfl rfl, .eq _ _ rfl rfl⟩, fun row hrow ↦ ?_⟩
  · have hkept : (oneWayAndReversed.simplify (some oneWayCategories) {}).toOption.any
        (· != .never) = true := by
      decide +kernel
    obtain ⟨q, hq, hne⟩ := (Option.any_eq_true _ _).1 hkept
    refine ⟨q, eq_ok_of_toOption hq, ?_⟩
    rintro rfl
    cases hne
  · have hcell := Row.choice_describes hrow (a := "oneway") rfl
    rw [Schema.Choice.Describes] at hcell
    generalize (row.choice hrow).category "oneway" = s? at hcell
    have htext : ¬ (Scalar.text "reversed").IsMissing := Bool.false_ne_true
    have hbool : ¬ (Scalar.bool true).IsMissing := Bool.false_ne_true
    rw [oneWayAndReversed, holds, Row.holds_compare, Row.holds_compare, hcell,
      Cell.compare_eq_scalar, Cell.compare_eq_scalar, Cell.equals_kept htext,
      Cell.equals_kept hbool]
    show Except.ok (decide (s?.map Scalar.key = some (Scalar.text "reversed").key) &&
      decide (s?.map Scalar.key = some (Scalar.bool true).key)) = _
    rw [Except.ok.injEq, Bool.and_eq_false_iff, decide_eq_false_iff_not, decide_eq_false_iff_not,
      ← not_and_or]
    rintro ⟨hreversed, htrue⟩
    cases hreversed.symm.trans htrue

end Predicate

end RuleCoverage
