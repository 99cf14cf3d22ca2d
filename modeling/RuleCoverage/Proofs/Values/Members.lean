import RuleCoverage.Proofs.Distinct
import RuleCoverage.Proofs.Interval.Union
import RuleCoverage.Values.Basic

/-!
# The members of a value set

What an attribute is for a feature is an `Option Value`: nothing, a number, or some literal.
`ValueSet.Mem vs v` says that it is among the values of `vs`.  A set of numbers looks at the point
of the line that a value is (`Value.toEReal`), a set of discrete values at its key (`Value.key?`),
which a list or a dictionary does not have.

The operations on value sets are the operations on their members as long as both sets are of one
shape (`ValueSet.SameShape`), which is so whenever both are about one attribute.

## What is here

* `NumericValues.Mem`, `DiscreteValues.Mem`, `ValueSet.Mem`, with a lemma for each operation.
* `ValueSet.isEmpty_iff` — a set is empty exactly when it has no members.  It is why a contradiction
  that value sets do not show is none.
* `ValueSet.subset_iff`, `ValueSet.mem_congr` — inclusion and equality.
-/

set_option autoImplicit false

namespace RuleCoverage

theorem Scalar.key_plain (s : Scalar) : s.plain.key = s.key := by
  cases s <;> rfl

/-- What an attribute can be for a feature that has it. -/
inductive Value where
  /-- A point of the line. -/
  | number (x : EReal)
  /-- A literal that is not read as a number. -/
  | literal (v : Literal)

namespace Value

/-- The point of the line that a value is, as far as it is one. -/
noncomputable def toEReal : Value → EReal
  | .number x => x
  | .literal _ => 0

/-- The key of a value that is a scalar. -/
def key? : Value → Option Scalar.Key
  | .literal (.scalar s) => some s.key
  | _ => none

end Value

/-! ## Numbers -/

namespace NumericValues

variable {a b : NumericValues} {v : Option EReal}

/-- The point, or nothing, is in the set. -/
def Mem (a : NumericValues) : Option EReal → Prop
  | none => a.null = true
  | some x => a.intervals.Mem x

@[simp] theorem mem_full : ∀ v : Option EReal, full.Mem v
  | none => rfl
  | some x => IntervalSet.mem_full x

@[simp] theorem not_mem_nothing : ∀ v : Option EReal, ¬ nothing.Mem v
  | none => Bool.false_ne_true
  | some x => IntervalSet.not_mem_empty x

@[simp] theorem mem_onlyNull : ∀ v : Option EReal, onlyNull.Mem v ↔ v = none
  | none => iff_of_true rfl rfl
  | some x => iff_of_false (IntervalSet.not_mem_empty x) (by simp)

theorem mem_ofInterval (iv : Interval) :
    ∀ v : Option EReal, (ofInterval iv).Mem v ↔ ∃ x, v = some x ∧ iv.Mem x
  | none => by simp [Mem, ofInterval]
  | some x => by simp [Mem, ofInterval, IntervalSet.mem_ofList]

theorem mem_points (xs : List Double) :
    ∀ v : Option EReal, (points xs).Mem v ↔ ∃ d ∈ xs, v = some d.toEReal
  | none => by simp [Mem, points]
  | some x => by simp [Mem, points, IntervalSet.mem_points]

@[simp] theorem mem_complement (a : NumericValues) :
    ∀ v : Option EReal, a.complement.Mem v ↔ ¬ a.Mem v
  | none => by simp [Mem, complement]
  | some x => IntervalSet.mem_complement a.intervals x

@[simp] theorem mem_inter (a b : NumericValues) :
    ∀ v : Option EReal, (a.inter b).Mem v ↔ a.Mem v ∧ b.Mem v
  | none => by simp [Mem, inter]
  | some x => IntervalSet.mem_inter a.intervals b.intervals x

@[simp] theorem mem_union (a b : NumericValues) :
    ∀ v : Option EReal, (a.union b).Mem v ↔ a.Mem v ∨ b.Mem v
  | none => by simp [Mem, union]
  | some x => IntervalSet.mem_union a.intervals b.intervals x

theorem isEmpty_iff (a : NumericValues) : a.isEmpty = true ↔ ∀ v, ¬ a.Mem v := by
  rw [isEmpty, Bool.and_eq_true, IntervalSet.isEmpty_iff, Bool.not_eq_true', ← Bool.not_eq_true]
  constructor
  · rintro ⟨hx, hnull⟩ (_ | x)
    · exact hnull
    · exact hx x
  · intro h
    exact ⟨fun x ↦ h (some x), h none⟩

theorem mem_congr (h : (a == b) = true) : ∀ v : Option EReal, a.Mem v ↔ b.Mem v := by
  have hparts : (a.intervals == b.intervals) = true ∧ a.null = b.null := by
    simpa [BEq.beq] using h
  rintro (_ | x)
  · rw [Mem, Mem, hparts.2]
  · exact IntervalSet.mem_congr hparts.1

end NumericValues

/-! ## Discrete values -/

/-- One of the scalars has the given key. -/
def Distinct.HasKey (s : Distinct Scalar) (k : Option Scalar.Key) : Prop :=
  ∃ x ∈ s.toList, some x.key = k

namespace Distinct

variable {s t : Distinct Scalar} {k : Option Scalar.Key}

theorem hasKey_some {k : Scalar.Key} : s.HasKey (some k) ↔ ∃ x ∈ s.toList, x.key = k := by
  simp only [HasKey, Option.some.injEq]

theorem not_hasKey_none : ¬ s.HasKey none := by
  rintro ⟨x, -, hx⟩
  cases hx

theorem contains_iff_hasKey {x : Scalar} : s.contains x = true ↔ s.HasKey (some x.key) := by
  rw [contains_iff Scalar.decidedBy_key (fun _ _ ↦ trivial) trivial, hasKey_some]

@[simp] theorem hasKey_union : (s.union t).HasKey k ↔ s.HasKey k ∨ t.HasKey k := by
  cases k with
  | none => simp only [not_hasKey_none, or_self]
  | some k =>
    simp only [hasKey_some]
    exact exists_union Scalar.decidedBy_key (fun _ _ ↦ trivial) (fun _ _ ↦ trivial) k

@[simp] theorem hasKey_inter : (s.inter t).HasKey k ↔ s.HasKey k ∧ t.HasKey k := by
  cases k with
  | none => simp only [not_hasKey_none, and_self]
  | some k =>
    simp only [hasKey_some]
    exact exists_inter Scalar.decidedBy_key (fun _ _ ↦ trivial) (fun _ _ ↦ trivial) k

@[simp] theorem hasKey_diff : (s.diff t).HasKey k ↔ s.HasKey k ∧ ¬ t.HasKey k := by
  cases k with
  | none => simp only [not_hasKey_none, false_and]
  | some k =>
    simp only [hasKey_some]
    exact exists_diff Scalar.decidedBy_key (fun _ _ ↦ trivial) (fun _ _ ↦ trivial) k

theorem hasKey_ofList {xs : List Scalar} :
    (ofList xs).HasKey k ↔ ∃ x ∈ xs, some x.key = k := by
  cases k with
  | none => simp [not_hasKey_none]
  | some k =>
    simp only [hasKey_some, Option.some.injEq]
    exact exists_ofList Scalar.decidedBy_key (fun _ _ ↦ trivial) k

@[simp] theorem not_hasKey_empty : ¬ (∅ : Distinct Scalar).HasKey k := by
  rintro ⟨x, hx, -⟩
  exact not_mem_empty x hx

@[simp] theorem hasKey_singleton {x : Scalar} : (singleton x).HasKey k ↔ k = some x.key := by
  simp only [HasKey, mem_singleton, exists_eq_left]
  exact eq_comm

theorem hasKey_congr (h : (s == t) = true) : s.HasKey k ↔ t.HasKey k := by
  cases k with
  | none => simp only [not_hasKey_none]
  | some k =>
    simp only [hasKey_some]
    exact (beq_iff Scalar.decidedBy_key (fun _ _ ↦ trivial) fun _ _ ↦ trivial).1 h k

end Distinct

namespace DiscreteValues

variable {a b : DiscreteValues}

/-- Nothing, or a value with the given key, is in the set.  A value without a key is in all cofinite
sets. -/
def Mem (a : DiscreteValues) : Option (Option Scalar.Key) → Prop
  | none => a.null = true
  | some k => if a.cofinite then ¬ a.values.HasKey k else a.values.HasKey k

@[simp] theorem null_full (domain : Option (Distinct Scalar)) : (full domain).null = true := by
  cases domain <;> rfl

@[simp] theorem mem_everything : ∀ v, (full none).Mem v
  | none => rfl
  | some _ => by simp [full, Mem]

theorem mem_full_some (domain : Distinct Scalar) :
    ∀ v, (full (some domain)).Mem v ↔ ∀ k, v = some k → domain.HasKey k
  | none => by simp [full, Mem]
  | some k => by simp [full, Mem]

@[simp] theorem mem_onlyNull : ∀ v, onlyNull.Mem v ↔ v = none
  | none => iff_of_true rfl rfl
  | some k => iff_of_false (by simp [onlyNull, Mem]) (by simp)

@[simp] theorem mem_complement (a : DiscreteValues) : ∀ v, a.complement.Mem v ↔ ¬ a.Mem v
  | none => by simp [Mem, complement]
  | some k => by cases h : a.cofinite <;> simp [Mem, complement, h]

@[simp] theorem mem_inter (a b : DiscreteValues) : ∀ v, (a.inter b).Mem v ↔ a.Mem v ∧ b.Mem v := by
  rintro (_ | k)
  · cases ha : a.cofinite <;> cases hb : b.cofinite <;> simp [Mem, inter, ha, hb]
  · cases ha : a.cofinite <;> cases hb : b.cofinite <;>
      simp [Mem, inter, ha, hb, not_or, and_comm]

@[simp] theorem mem_union (a b : DiscreteValues) : ∀ v, (a.union b).Mem v ↔ a.Mem v ∨ b.Mem v := by
  rintro (_ | k)
  · cases ha : a.cofinite <;> cases hb : b.cofinite <;> simp [Mem, union, ha, hb]
  · by_cases hak : a.values.HasKey k <;> by_cases hbk : b.values.HasKey k <;>
      cases ha : a.cofinite <;> cases hb : b.cofinite <;> simp [Mem, union, ha, hb, hak, hbk]

/-- Whether a set is empty shows at the missing value, at a value without a key and at scalars. -/
theorem isEmpty_iff (a : DiscreteValues) : a.isEmpty = true ↔
    ¬ a.Mem none ∧ ¬ a.Mem (some none) ∧ ∀ x : Scalar, ¬ a.Mem (some (some x.key)) := by
  simp only [isEmpty, Bool.and_eq_true, Bool.not_eq_true', Distinct.isEmpty_iff]
  constructor
  · rintro ⟨⟨hfinite, hvalues⟩, hnull⟩
    have hkey : ∀ k, ¬ a.Mem (some k) := by
      intro k hk
      rw [Mem, if_neg (by simp [hfinite])] at hk
      obtain ⟨x, hx, -⟩ := hk
      exact hvalues x hx
    exact ⟨by simp [Mem, hnull], hkey none, fun x ↦ hkey (some x.key)⟩
  · rintro ⟨hnull, hother, hkey⟩
    have hfinite : a.cofinite = false := by
      cases hc : a.cofinite with
      | false => rfl
      | true => exact absurd (by simp [Mem, hc, Distinct.not_hasKey_none]) hother
    refine ⟨⟨hfinite, fun x hx ↦ hkey x ?_⟩, Bool.eq_false_iff.2 hnull⟩
    rw [Mem, if_neg (by simp [hfinite])]
    exact ⟨x, hx, rfl⟩

theorem mem_congr (h : (a == b) = true) : ∀ v, a.Mem v ↔ b.Mem v := by
  have hparts : ((a.values == b.values) = true ∧ a.cofinite = b.cofinite) ∧ a.null = b.null := by
    simpa [BEq.beq] using h
  rintro (_ | k)
  · rw [Mem, Mem, hparts.2]
  · rw [Mem, Mem, hparts.1.2, Distinct.hasKey_congr hparts.1.1]

/-- A finite set holds nothing but its scalars, and what is missing. -/
theorem mem_iff_of_not_cofinite {d : DiscreteValues} (h : d.cofinite = false)
    (v : Option Value) : d.Mem (v.map Value.key?) ↔
      (d.null = true ∧ v = none) ∨ d.values.HasKey (v.bind Value.key?) := by
  cases v with
  | none => simp [Mem, Distinct.not_hasKey_none]
  | some v => simp [Mem, h]

/-- A cofinite set holds everything but its scalars, and what is missing only if it says so. -/
theorem mem_iff_of_cofinite {d : DiscreteValues} (h : d.cofinite = true)
    (v : Option Value) : d.Mem (v.map Value.key?) ↔
      (d.null = true ∨ v ≠ none) ∧ ¬ d.values.HasKey (v.bind Value.key?) := by
  cases v with
  | none => simp [Mem, Distinct.not_hasKey_none]
  | some v => simp [Mem, h]

end DiscreteValues

/-! ## Value sets -/

namespace ValueSet

variable {a b c : ValueSet} {v : Option Value}

/-- What an attribute is, is in the set. -/
def Mem : ValueSet → Option Value → Prop
  | .numeric a, v => a.Mem (v.map Value.toEReal)
  | .discrete a, v => a.Mem (v.map Value.key?)

/-- Whether a set is one of numbers. -/
def isNumeric : ValueSet → Bool
  | .numeric _ => true
  | .discrete _ => false

/-- Both sets are of numbers, or both are of discrete values. -/
def SameShape (a b : ValueSet) : Prop := a.isNumeric = b.isNumeric

@[simp] theorem isNumeric_complement (a : ValueSet) : a.complement.isNumeric = a.isNumeric := by
  cases a <;> rfl

@[simp] theorem isNumeric_inter (a b : ValueSet) : (a.inter b).isNumeric = a.isNumeric := by
  cases a <;> cases b <;> rfl

@[simp] theorem isNumeric_union (a b : ValueSet) : (a.union b).isNumeric = a.isNumeric := by
  cases a <;> cases b <;> rfl

@[simp] theorem mem_complement (a : ValueSet) (v : Option Value) :
    a.complement.Mem v ↔ ¬ a.Mem v := by
  cases a with
  | numeric a => exact a.mem_complement _
  | discrete a => exact a.mem_complement _

theorem mem_inter (h : SameShape a b) (v : Option Value) :
    (a.inter b).Mem v ↔ a.Mem v ∧ b.Mem v := by
  cases a with
  | numeric a =>
    cases b with
    | numeric b => exact a.mem_inter b _
    | discrete b => cases h
  | discrete a =>
    cases b with
    | numeric b => cases h
    | discrete b => exact a.mem_inter b _

theorem mem_union (h : SameShape a b) (v : Option Value) :
    (a.union b).Mem v ↔ a.Mem v ∨ b.Mem v := by
  cases a with
  | numeric a =>
    cases b with
    | numeric b => exact a.mem_union b _
    | discrete b => cases h
  | discrete a =>
    cases b with
    | numeric b => cases h
    | discrete b => exact a.mem_union b _

/-- **A value set is empty exactly when it has no members.** -/
theorem isEmpty_iff (a : ValueSet) : a.isEmpty = true ↔ ∀ v, ¬ a.Mem v := by
  cases a with
  | numeric a =>
    rw [isEmpty, NumericValues.isEmpty_iff]
    refine ⟨fun h v ↦ h _, fun h v ↦ ?_⟩
    have hv := h (v.map Value.number)
    rwa [Mem, Option.map_map, show Value.toEReal ∘ Value.number = id from rfl,
      Option.map_id_fun, id] at hv
  | discrete a =>
    rw [isEmpty, DiscreteValues.isEmpty_iff]
    constructor
    · rintro ⟨hnull, hother, hkey⟩ (_ | _ | _ | _ | _)
      · exact hnull
      · exact hother
      · exact hkey _
      · exact hother
      · exact hother
    · intro h
      exact ⟨h none, h (some (.number 0)), fun x ↦ h (some (.literal (.scalar x)))⟩

theorem subset_iff (h : SameShape a b) : a.subset b = true ↔ ∀ v, a.Mem v → b.Mem v := by
  have hshape : SameShape a b.complement := by rwa [SameShape, isNumeric_complement]
  rw [subset, isEmpty_iff]
  simp only [mem_inter hshape, mem_complement, not_and, not_not]

/-- Equal value sets have the same members. -/
theorem mem_congr (h : (a == b) = true) (v : Option Value) : a.Mem v ↔ b.Mem v := by
  cases a with
  | numeric a =>
    cases b with
    | numeric b => exact NumericValues.mem_congr h _
    | discrete b => cases h
  | discrete a =>
    cases b with
    | numeric b => cases h
    | discrete b => exact DiscreteValues.mem_congr h _

end ValueSet

end RuleCoverage
