import RuleCoverage.NormalForm.AtomValues
import RuleCoverage.Proofs.Predicate.Classes
import RuleCoverage.Proofs.Values.Members

/-!
# Readings

The normal form of a predicate is computed from an `Interpretation`: which attributes there are and
of which kinds.  A `Reading` of it is anything that predicates can be about: it says what each
attribute is and which atoms are true, in agreement with the interpretation.  A row of a table is
one, and so is an assignment of values to the attributes of a schema.

A reading may know only some atoms; a row, for instance, only those that have a truth value on it.
It has to know the atoms that a normal form is written with, though.

## What is here

* `Reading`, `Reading.IsOpaque` — readings, and the atoms that are propositions of their own there.
* `ValueSet.Demand` — a value set as a demand on one attribute: it is about values of the
  attribute's kind, some but not all of them.
-/

set_option autoImplicit false

namespace RuleCoverage

/-- The attribute that an atom names by a text. -/
def Predicate.named? (atom : Predicate) : Option String := atom.attr?.bind Literal.text?

/-- Something that predicates can be about, as far as an interpretation tells. -/
structure Reading (ctx : Interpretation) where
  /-- What an attribute is. -/
  value : String → Option Value
  /-- The atoms that the reading knows. -/
  Knows : Predicate → Prop
  /-- Which of the atoms that it knows are true. -/
  truth : Predicate → Prop
  /-- The scalars that an attribute may be compared with. -/
  Compares : String → Scalar → Prop
  full_mem : ∀ {a full}, ctx.full? a = some full → full.Mem (value a)
  compares_domain : ∀ {a d}, ctx.full? a = some (.discrete d) → ∀ s ∈ d.values.toList, Compares a s
  /-- An atom on a missing attribute is true exactly if it is so of features without it. -/
  truth_of_isMissing : ∀ {atom a}, Knows atom → atom.named? = some a → ctx.isMissing a = true →
    (truth atom ↔ atom.holdsOfNull = true)
  /-- An interpreted atom is true exactly if its attribute is in the atom's value set. -/
  truth_of_values : ∀ {atom a vs}, Knows atom → atom.named? = some a →
    ctx.values? atom = .ok (some vs) → (truth atom ↔ vs.Mem (value a))
  compares_values : ∀ {atom a d}, Knows atom → atom.named? = some a →
    ctx.values? atom = .ok (some (.discrete d)) → ∀ s ∈ d.values.toList, Compares a s
  /-- Opaque atoms that are equal are true together. -/
  truth_congr : ∀ {p q}, Knows p → Knows q → p.IsMember → q.IsMember →
    ctx.values? p = .ok none → ctx.values? q = .ok none → p.tag = q.tag → (truth p ↔ truth q)
  knows_isNull : ∀ {a k}, ctx.kind? a = some k → Knows (.isNull (.text a))
  knows_compare : ∀ {a}, ctx.kind? a = some .numeric → ∀ op x,
    Knows (.compare (.text a) op (.double x))
  knows_isIn : ∀ {a}, ctx.kind? a = some .numeric → ∀ vs : Distinct Scalar,
    (∀ s ∈ vs.toList, ∃ x, s = .double x) → Knows (.isIn (.text a) vs)
  knows_between : ∀ {a}, ctx.kind? a = some .numeric → ∀ l h li hi,
    Knows (.between (.text a) (.double l) (.double h) li hi)
  truth_eq : ∀ {a k s}, ctx.kind? a = some k → k ≠ .numeric → Compares a s →
    Knows (.compare (.text a) .eq (.scalar s)) ∧
      (truth (.compare (.text a) .eq (.scalar s)) ↔ (value a).bind Value.key? = some s.key)
  truth_ne : ∀ {a k s}, ctx.kind? a = some k → k ≠ .numeric → Compares a s →
    Knows (.compare (.text a) .ne (.scalar s)) ∧
      (truth (.compare (.text a) .ne (.scalar s)) ↔ (value a).bind Value.key? ≠ some s.key)
  truth_isIn : ∀ {a k} {vs : Distinct Scalar}, ctx.kind? a = some k → k ≠ .numeric →
    (∀ s ∈ vs.toList, Compares a s) → Knows (.isIn (.text a) vs) ∧
      (truth (.isIn (.text a) vs) ↔ vs.HasKey ((value a).bind Value.key?))

namespace Reading

variable {ctx : Interpretation}

/-- The atom is known and is a proposition of its own. -/
structure IsOpaque (r : Reading ctx) (atom : Predicate) : Prop where
  knows : r.Knows atom
  member : atom.IsMember
  values : ctx.values? atom = .ok none
  present : ∀ a, atom.named? = some a → ¬ ctx.isMissing a = true

theorem IsOpaque.truth_iff {r : Reading ctx} {p q : Predicate} (hp : r.IsOpaque p)
    (hq : r.IsOpaque q) (h : p.tag = q.tag) : r.truth p ↔ r.truth q :=
  r.truth_congr hp.knows hq.knows hp.member hq.member hp.values hq.values h

end Reading

/-! ## Kinds and shapes -/

namespace Interpretation

variable {ctx : Interpretation} {a : String} {full : ValueSet}

theorem full?_eq_some (h : ctx.full? a = some full) : ∃ k, ctx.kind? a = some k ∧
    full = match k with
      | .numeric => .numeric .full
      | k => .discrete (.full (ctx.schema?.bind fun schema ↦ schema.domainOf a k)) := by
  rw [full?, Option.map_eq_some_iff] at h
  obtain ⟨k, hk, h⟩ := h
  exact ⟨k, hk, h.symm⟩

theorem full?_of_kind? {k : Kind} (h : ctx.kind? a = some k) : ∃ full, ctx.full? a = some full :=
  ⟨_, by rw [full?, h, Option.map_some]⟩

theorem full?_numeric (hk : ctx.kind? a = some .numeric) :
    ctx.full? a = some (.numeric .full) := by
  rw [full?, hk]
  rfl

theorem full?_discrete {k : Kind} (hk : ctx.kind? a = some k) (hk' : k ≠ .numeric) :
    ctx.full? a =
      some (.discrete (.full (ctx.schema?.bind fun schema ↦ schema.domainOf a k))) := by
  rw [full?, hk]
  cases k with
  | numeric => exact absurd rfl hk'
  | _ => rfl

theorem kind?_ne_none (h : ctx.full? a = some full) : ctx.kind? a ≠ none := by
  obtain ⟨k, hk, -⟩ := full?_eq_some h
  simp [hk]

/-- Any attribute may be missing. -/
theorem null_mem_full (h : ctx.full? a = some full) : full.Mem none := by
  obtain ⟨k, -, rfl⟩ := full?_eq_some h
  cases k with
  | numeric => rfl
  | _ => exact DiscreteValues.null_full _

theorem isNumeric_full (h : ctx.full? a = some full) :
    full.isNumeric = true ↔ ctx.kind? a = some .numeric := by
  obtain ⟨k, hk, rfl⟩ := full?_eq_some h
  rw [hk]
  cases k <;> simp [ValueSet.isNumeric]

/-- An attribute that has a kind is not missing. -/
theorem not_isMissing {k : Kind} (hk : ctx.kind? a = some k) : ¬ ctx.isMissing a = true := by
  rw [kind?] at hk
  rw [isMissing]
  cases h : ctx.schema? with
  | none => simp
  | some schema =>
    simp only [h] at hk
    simp [Schema.has, hk]

end Interpretation

/-! ## Interpreted atoms -/

namespace Interpretation

variable {ctx : Interpretation} {atom : Predicate} {a : String} {k : Kind} {vs : ValueSet}

theorem values?_of_unnamed (h : atom.named? = none) : ctx.values? atom = .ok none := by
  rw [Predicate.named?] at h
  rw [values?, h]
  rfl

theorem values?_of_kindless (h : atom.named? = some a) (hk : ctx.kind? a = none) :
    ctx.values? atom = .ok none := by
  rw [Predicate.named?] at h
  rw [values?, h]
  simp only [hk]
  rfl

theorem values?_isNull (hk : ctx.kind? a = some k) : ctx.values? (.isNull (.text a)) =
    .ok (some (if k = .numeric then .numeric .onlyNull else .discrete .onlyNull)) := by
  rw [values?]
  simp only [Predicate.attr?, Option.bind_some, Literal.text?, hk]
  cases k <;> rfl

theorem values?_numeric (h : atom.named? = some a) (hk : ctx.kind? a = some .numeric)
    (hnull : ∀ b, atom ≠ .isNull b) :
    ctx.values? atom = atom.numericValues? >>= fun vs ↦ .ok (vs.map .numeric) := by
  rw [Predicate.named?] at h
  rw [values?, h]
  simp only [hk]
  rfl

theorem values?_discrete (h : atom.named? = some a) (hk : ctx.kind? a = some k)
    (hk' : k ≠ .numeric) (hnull : ∀ b, atom ≠ .isNull b) :
    ctx.values? atom = .ok ((atom.discreteValues? k).map .discrete) := by
  rw [Predicate.named?] at h
  rw [values?, h]
  simp only [hk]
  split
  · exact absurd rfl (hnull _)
  · exact absurd rfl (hnull _)
  · exact absurd rfl hk'
  · rfl

theorem eq_text_of_named? {b : Literal} (h : (Predicate.isNull b).named? = some a) :
    b = .text a := by
  cases b with
  | scalar s =>
    cases s <;> cases h
    rfl
  | list | dict => cases h

/-- The values of an atom on an attribute of a kind: a test for null is on any attribute, and the
kind says how other atoms are read. -/
theorem values?_cases {vs? : Option ValueSet} (hn : atom.named? = some a)
    (hk : ctx.kind? a = some k) (h : ctx.values? atom = .ok vs?) :
    (atom = .isNull (.text a) ∧
      vs? = some (if k = .numeric then .numeric .onlyNull else .discrete .onlyNull)) ∨
    ((∀ b, atom ≠ .isNull b) ∧ k = .numeric ∧
      ∃ ns?, atom.numericValues? = .ok ns? ∧ vs? = ns?.map .numeric) ∨
    ((∀ b, atom ≠ .isNull b) ∧ k ≠ .numeric ∧
      vs? = (atom.discreteValues? k).map .discrete) := by
  by_cases hnull : ∃ b, atom = .isNull b
  · obtain ⟨b, rfl⟩ := hnull
    obtain rfl := eq_text_of_named? hn
    rw [values?_isNull hk] at h
    exact .inl ⟨rfl, (Except.ok.inj h).symm⟩
  rw [not_exists] at hnull
  by_cases hnum : k = .numeric
  · subst hnum
    rw [values?_numeric hn hk hnull] at h
    obtain ⟨ns?, hns, h⟩ := bind_eq_ok.1 h
    exact .inr (.inl ⟨hnull, rfl, ns?, hns, (Except.ok.inj h).symm⟩)
  · rw [values?_discrete hn hk hnum hnull] at h
    exact .inr (.inr ⟨hnull, hnum, (Except.ok.inj h).symm⟩)

/-- An atom with a value set is about an attribute that has a kind, and the set is of the shape of
that kind. -/
theorem values?_eq_some (h : ctx.values? atom = .ok (some vs)) : ∃ a full,
    atom.named? = some a ∧ ctx.full? a = some full ∧ vs.SameShape full := by
  rcases hn : atom.named? with _ | a
  · rw [values?_of_unnamed hn] at h
    cases h
  rcases hk : ctx.kind? a with _ | k
  · rw [values?_of_kindless hn hk] at h
    cases h
  obtain ⟨full, hfull⟩ := full?_of_kind? hk
  have hshape := isNumeric_full hfull
  rw [hk, Option.some.injEq] at hshape
  refine ⟨a, full, rfl, hfull, ?_⟩
  rw [ValueSet.SameShape, Bool.eq_iff_iff, hshape]
  rcases values?_cases hn hk h with ⟨-, hvs⟩ | ⟨-, rfl, ns?, -, hvs⟩ | ⟨-, hk', hvs⟩
  · obtain rfl := Option.some.inj hvs
    by_cases hnum : k = .numeric
    · rw [if_pos hnum]
      exact iff_of_true rfl hnum
    · rw [if_neg hnum]
      exact iff_of_false Bool.false_ne_true hnum
  · obtain ⟨ns, -, rfl⟩ := Option.map_eq_some_iff.1 hvs.symm
    exact iff_of_true rfl rfl
  · obtain ⟨ds, -, rfl⟩ := Option.map_eq_some_iff.1 hvs.symm
    exact iff_of_false Bool.false_ne_true hk'

/-- The attribute of an atom with a value set has a kind. -/
theorem exists_kind?_of_values (hn : atom.named? = some a)
    (h : ctx.values? atom = .ok (some vs)) : ∃ k, ctx.kind? a = some k := by
  obtain ⟨b, full, hb, hfull, -⟩ := values?_eq_some h
  cases hn.symm.trans hb
  obtain ⟨k, hk, -⟩ := full?_eq_some hfull
  exact ⟨k, hk⟩

end Interpretation

theorem Kind.fits_plain (k : Kind) (s : Scalar) : k.fits s.plain = k.fits s := by
  cases s <;> rfl

/-- The discrete values of an atom are literals of the atom that fit the kind. -/
theorem Predicate.literal_of_mem_discreteValues {atom : Predicate} {k : Kind} {d : DiscreteValues}
    (h : atom.discreteValues? k = some d) : ∀ s ∈ d.values.toList, k.fits s = true ∧
      ∃ t ls, atom.literals? = some ls ∧ Literal.scalar t ∈ ls ∧ s = t.plain := by
  intro s hs
  cases atom with
  | compare a op w =>
    cases w with
    | list | dict => cases h
    | scalar t =>
      rw [discreteValues?.eq_def] at h
      dsimp only at h
      split at h
      · rename_i hfits
        have hst : s = t.plain := by
          cases op <;> cases h <;> exact Distinct.mem_singleton.1 hs
        refine ⟨by rw [hst, Kind.fits_plain, hfits], t, _, rfl, List.mem_singleton_self _, hst⟩
      · cases h
  | isIn a vs =>
    rw [discreteValues?] at h
    split at h
    · rename_i hfits
      cases h
      obtain ⟨t, ht, rfl⟩ := List.mem_map.1 (Distinct.mem_of_mem_ofList hs)
      refine ⟨?_, t, _, rfl, List.mem_map_of_mem ht, rfl⟩
      rw [Kind.fits_plain, List.all_eq_true.1 hfits t ht]
    · cases h
  | _ => cases h

/-- The discrete values that an atom is given are literals of the atom that fit the kind. -/
theorem Interpretation.literal_of_mem_values {ctx : Interpretation} {atom : Predicate} {a : String}
    {k : Kind} {d : DiscreteValues} (hn : atom.named? = some a) (hk : ctx.kind? a = some k)
    (h : ctx.values? atom = .ok (some (.discrete d))) : ∀ s ∈ d.values.toList, k.fits s = true ∧
      ∃ t ls, atom.literals? = some ls ∧ Literal.scalar t ∈ ls ∧ s = t.plain := by
  rcases values?_cases hn hk h with ⟨-, hd⟩ | ⟨-, -, ns?, -, hd⟩ | ⟨-, -, hd⟩
  · split at hd
    · cases hd
    · cases hd
      exact fun s hs ↦ absurd hs (Distinct.not_mem_empty s)
  · cases ns? <;> cases hd
  · obtain ⟨e, he, heq⟩ := Option.map_eq_some_iff.1 hd.symm
    cases heq
    exact Predicate.literal_of_mem_discreteValues he

/-! ## Value sets as demands -/

/-- The scalars of a value set may be written. -/
def ValueSet.Writable {ctx : Interpretation} (r : Reading ctx) (a : String) (vs : ValueSet) :
    Prop :=
  ∀ d, vs = .discrete d → ∀ s ∈ d.values.toList, r.Compares a s

/-- The value set is of the shape of the attribute's values. -/
def ValueSet.Fits (ctx : Interpretation) (a : String) (vs : ValueSet) : Prop :=
  ∃ full, ctx.full? a = some full ∧ vs.SameShape full

theorem ValueSet.Fits.sameShape {ctx : Interpretation} {a : String} {us vs : ValueSet}
    (hu : us.Fits ctx a) (hv : vs.Fits ctx a) : us.SameShape vs := by
  obtain ⟨full, hfull, hus⟩ := hu
  obtain ⟨full', hfull', hvs⟩ := hv
  cases hfull.symm.trans hfull'
  exact hus.trans hvs.symm

/-- The value set is of numbers, on a numeric attribute, or it is discrete, on any other one. -/
inductive ValueSet.Shaped (ctx : Interpretation) (a : String) : ValueSet → Prop
  | numeric {ns : NumericValues} (hk : ctx.kind? a = some .numeric) : Shaped ctx a (.numeric ns)
  | discrete {d : DiscreteValues} {k : Kind} {domain : Option (Distinct Scalar)}
      (hk : ctx.kind? a = some k) (hk' : k ≠ .numeric)
      (hfull : ctx.full? a = some (.discrete (.full domain))) : Shaped ctx a (.discrete d)

theorem ValueSet.Fits.shaped {ctx : Interpretation} {a : String} {vs : ValueSet}
    (h : vs.Fits ctx a) : vs.Shaped ctx a := by
  obtain ⟨full, hfull, hshape⟩ := h
  obtain ⟨k, hk, -⟩ := Interpretation.full?_eq_some hfull
  by_cases hnum : k = .numeric
  · subst hnum
    cases hfull.symm.trans (Interpretation.full?_numeric hk)
    cases vs with
    | numeric ns => exact .numeric hk
    | discrete d => cases hshape
  · cases hfull.symm.trans (Interpretation.full?_discrete hk hnum)
    cases vs with
    | numeric ns => cases hshape
    | discrete d => exact .discrete hk hnum hfull

/-- The value set is a demand on an attribute: it is of the right shape, some value that the
attribute can have is in it, no others are, and its members may be written. -/
structure ValueSet.Demand {ctx : Interpretation} (r : Reading ctx) (a : String) (vs : ValueSet) :
    Prop where
  full : vs.Fits ctx a
  within : ∀ full, ctx.full? a = some full → ∀ v, vs.Mem v → full.Mem v
  nonempty : ∃ v, vs.Mem v
  writable : vs.Writable r a

namespace ValueSet

variable {ctx : Interpretation} {r : Reading ctx} {a : String} {us vs : ValueSet}

theorem nonempty_of_isEmpty (h : ¬ vs.isEmpty = true) : ∃ v, vs.Mem v := by
  rw [isEmpty_iff] at h
  simpa using h

theorem Demand.sameShape (hu : us.Demand r a) (hv : vs.Demand r a) : us.SameShape vs :=
  hu.full.sameShape hv.full

/-- The scalars of an overlap come from either set. -/
theorem mem_values_inter {d e : DiscreteValues} {s : Scalar}
    (h : s ∈ (d.inter e).values.toList) : s ∈ d.values.toList ∨ s ∈ e.values.toList := by
  rw [DiscreteValues.inter] at h
  cases hd : d.cofinite <;> cases he : e.cofinite <;> simp only [hd, he] at h
  · exact Distinct.mem_of_mem_inter h
  · exact .inl (Distinct.mem_diff.1 h).1
  · exact .inr (Distinct.mem_diff.1 h).1
  · exact Distinct.mem_of_mem_union h

/-- The scalars of a union come from either set. -/
theorem mem_values_union {d e : DiscreteValues} {s : Scalar}
    (h : s ∈ (d.union e).values.toList) : s ∈ d.values.toList ∨ s ∈ e.values.toList := by
  rw [DiscreteValues.union] at h
  cases hd : d.cofinite <;> cases he : e.cofinite <;> simp only [hd, he] at h
  · exact Distinct.mem_of_mem_union h
  · exact .inr (Distinct.mem_diff.1 h).1
  · exact .inl (Distinct.mem_diff.1 h).1
  · exact Distinct.mem_of_mem_inter h

theorem Writable.inter (hu : us.Writable r a) (hv : vs.Writable r a) :
    (us.inter vs).Writable r a := by
  rintro d hd s hs
  cases us <;> cases vs <;> cases hd
  · cases hs
  · rcases mem_values_inter hs with hs | hs
    · exact hu _ rfl s hs
    · exact hv _ rfl s hs

theorem Writable.union (hu : us.Writable r a) (hv : vs.Writable r a) :
    (us.union vs).Writable r a := by
  rintro d hd s hs
  cases us <;> cases vs <;> cases hd
  · exact hu _ rfl s hs
  · rcases mem_values_union hs with hs | hs
    · exact hu _ rfl s hs
    · exact hv _ rfl s hs

theorem Writable.complement (hv : vs.Writable r a) : vs.complement.Writable r a := by
  rintro d hd s hs
  cases vs <;> cases hd
  exact hv _ rfl s hs

theorem writable_full {full : ValueSet} (h : ctx.full? a = some full) : full.Writable r a := by
  rintro d rfl
  exact r.compares_domain h

/-- What two demands have in common, unless it is nothing. -/
theorem Demand.inter (hu : us.Demand r a) (hv : vs.Demand r a)
    (h : ¬ (us.inter vs).isEmpty = true) : (us.inter vs).Demand r a where
  full := by
    obtain ⟨full, hfull, hus⟩ := hu.full
    exact ⟨full, hfull, by rw [SameShape, isNumeric_inter]; exact hus⟩
  within full hfull v hv' :=
    hu.within full hfull v ((mem_inter (hu.sameShape hv) v).1 hv').1
  nonempty := nonempty_of_isEmpty h
  writable := hu.writable.inter hv.writable

/-- What either of two demands allows. -/
theorem Demand.union (hu : us.Demand r a) (hv : vs.Demand r a) : (us.union vs).Demand r a where
  full := by
    obtain ⟨full, hfull, hus⟩ := hu.full
    exact ⟨full, hfull, by rw [SameShape, isNumeric_union]; exact hus⟩
  within full hfull v hv' := by
    rcases (mem_union (hu.sameShape hv) v).1 hv' with hm | hm
    · exact hu.within full hfull v hm
    · exact hv.within full hfull v hm
  nonempty := by
    obtain ⟨v, hm⟩ := hu.nonempty
    exact ⟨v, (mem_union (hu.sameShape hv) v).2 (.inl hm)⟩
  writable := hu.writable.union hv.writable

/-- A value set cut down to the values of the attribute, unless none is left. -/
theorem demand_inter_full {full : ValueSet} (hfull : ctx.full? a = some full)
    (hshape : vs.SameShape full) (hw : vs.Writable r a) (h : ¬ (vs.inter full).isEmpty = true) :
    (vs.inter full).Demand r a where
  full := ⟨full, hfull, by rw [SameShape, isNumeric_inter]; exact hshape⟩
  within full' hfull' v hv := by
    cases hfull.symm.trans hfull'
    exact ((mem_inter hshape v).1 hv).2
  nonempty := nonempty_of_isEmpty h
  writable := hw.inter (writable_full hfull)

end ValueSet

end RuleCoverage
