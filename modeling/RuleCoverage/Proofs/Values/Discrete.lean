import RuleCoverage.Proofs.Values.Algebra

/-!
# Discrete sets, finite and cofinite

A set of discrete values is finite or cofinite.  What it holds are scalars up to equality, and
perhaps the missing value (`DiscreteValues.Holds`).  There is no end of texts, so beyond the values
of any two sets there is one that only the cofinite ones hold (`DiscreteValues.exists_text_beyond`).
Hence a cofinite set is never empty and never equals a finite one, and the operations are exact.

An attribute may also have a finite domain.  Its sets are still computed with as if there were no
end of values, and cofinite ones come up in between: what is meant by a complement is its overlap
with the domain, which is finite again.

`DiscreteValues.isExact_also_on_domain` collects both.
-/

set_option autoImplicit false

namespace RuleCoverage

/-- There is a text that is not in the set. -/
theorem Distinct.exists_text_not_hasKey (s : Distinct Scalar) :
    ∃ t : String, ¬ s.HasKey (some (.text t)) := by
  obtain ⟨t, ht⟩ := Infinite.exists_notMem_finset
    (s.toList.filterMap fun x ↦ (Literal.scalar x).text?).toFinset
  refine ⟨t, fun ⟨x, hx, hkey⟩ ↦ ht ?_⟩
  rw [List.mem_toFinset, List.mem_filterMap]
  refine ⟨x, hx, ?_⟩
  cases x with
  | text u =>
    cases hkey
    rfl
  | _ => cases hkey

namespace DiscreteValues

variable {a b : DiscreteValues} {domain : Distinct Scalar} {v : Option Scalar}

/-! ## Members -/

/-- The missing value, or a scalar up to equality, is in the set. -/
def Holds (a : DiscreteValues) : Option Scalar → Prop
  | none => a.null = true
  | some x => if a.cofinite then ¬ a.values.contains x = true else a.values.contains x = true

theorem holds_iff_mem (a : DiscreteValues) (v : Option Scalar) :
    a.Holds v ↔ a.Mem (v.map fun x ↦ some x.key) := by
  cases v with
  | none => exact Iff.rfl
  | some x =>
    rw [Holds, Distinct.contains_iff_hasKey]
    exact Iff.rfl

/-- Whether a set is cofinite shows at a value that is none of the scalars. -/
theorem mem_some_none : a.Mem (some none) ↔ a.cofinite = true := by
  cases h : a.cofinite <;> simp [Mem, h, Distinct.not_hasKey_none]

/-- **Beyond the values of two sets** there is a text, and of the two it is in the cofinite ones. -/
theorem exists_text_beyond (a b : DiscreteValues) : ∃ t : String,
    (a.Holds (some (.text t)) ↔ a.cofinite = true) ∧
      (b.Holds (some (.text t)) ↔ b.cofinite = true) := by
  obtain ⟨t, ht⟩ := (a.values.union b.values).exists_text_not_hasKey
  rw [Distinct.hasKey_union, not_or] at ht
  have hbeyond : ∀ c : DiscreteValues, ¬ c.values.HasKey (some (.text t)) →
      (c.Holds (some (.text t)) ↔ c.cofinite = true) := by
    intro c hc
    rw [holds_iff_mem, Option.map_some, Scalar.key, Mem]
    cases c.cofinite <;> simp [hc]
  exact ⟨t, hbeyond a ht.1, hbeyond b ht.2⟩

theorem isEmpty_iff_holds (a : DiscreteValues) : a.isEmpty = true ↔ ∀ v, ¬ a.Holds v := by
  rw [isEmpty_iff]
  constructor
  · rintro ⟨hnull, -, hkey⟩ (_ | x)
    · exact hnull
    · rw [holds_iff_mem]
      exact hkey x
  · intro h
    obtain ⟨t, ht, -⟩ := exists_text_beyond a a
    refine ⟨h none, ?_, fun x ↦ ?_⟩
    · rw [mem_some_none, ← ht]
      exact h _
    · exact fun hx ↦ h (some x) ((holds_iff_mem a _).2 hx)

/-- **Sets are equal just when they hold the same values.** -/
theorem beq_iff_holds (a b : DiscreteValues) :
    (a == b) = true ↔ ∀ v, a.Holds v ↔ b.Holds v := by
  rw [beq_iff]
  constructor
  · rintro ⟨hnull, -, hkey⟩ (_ | x)
    · exact hnull
    · rw [holds_iff_mem, holds_iff_mem]
      exact hkey x
  · intro h
    obtain ⟨t, ha, hb⟩ := exists_text_beyond a b
    refine ⟨h none, ?_, fun x ↦ ?_⟩
    · rw [mem_some_none, mem_some_none, ← ha, ← hb]
      exact h _
    · have hx := h (some x)
      rwa [holds_iff_mem, holds_iff_mem] at hx

/-! ## Without a domain -/

/-- Discrete sets as a type of sets. -/
def algebra : SetAlgebra DiscreteValues := ⟨union, inter, complement, full none, subset, isEmpty⟩

theorem holds_union (a b : DiscreteValues) (v : Option Scalar) :
    (a.union b).Holds v ↔ a.Holds v ∨ b.Holds v := by
  simp only [holds_iff_mem, mem_union]

theorem holds_inter (a b : DiscreteValues) (v : Option Scalar) :
    (a.inter b).Holds v ↔ a.Holds v ∧ b.Holds v := by
  simp only [holds_iff_mem, mem_inter]

theorem holds_complement (a : DiscreteValues) (v : Option Scalar) :
    a.complement.Holds v ↔ ¬ a.Holds v := by
  simp only [holds_iff_mem, mem_complement]

theorem subset_iff_holds (a b : DiscreteValues) :
    a.subset b = true ↔ ∀ v, a.Holds v → b.Holds v := by
  rw [subset, isEmpty_iff_holds]
  simp only [holds_inter, holds_complement, not_and, not_not]

theorem isExact_algebra : algebra.IsExact Holds where
  mem_union := holds_union
  mem_inter := holds_inter
  mem_complement := holds_complement
  mem_full v := (holds_iff_mem _ v).2 (mem_everything _)
  subset_iff := subset_iff_holds
  isEmpty_iff := isEmpty_iff_holds

theorem isBoolean_algebra : algebra.IsBoolean :=
  isExact_algebra.isBoolean fun a b ↦ (beq_iff_holds a b).2

/-! ## On a domain -/

/-- The value is missing or belongs to the domain. -/
def Within (domain : Distinct Scalar) : Option Scalar → Prop
  | none => True
  | some x => domain.contains x = true

theorem holds_full_some : (full (some domain)).Holds v ↔ Within domain v := by
  cases v with
  | none => exact iff_of_true rfl trivial
  | some x => exact Iff.rfl

/-- The overlap with a domain is finite, also that of a complement. -/
theorem cofinite_inter_full (a : DiscreteValues) (domain : Distinct Scalar) :
    (a.inter (full (some domain))).cofinite = false := by
  rw [inter]
  cases a.cofinite <;> rfl

/-- Sets on a domain are contained in one another when they are so within the domain. -/
theorem subset_iff_within (ha : a.subset (full (some domain)) = true) :
    a.subset b = true ↔ ∀ v, Within domain v → a.Holds v → b.Holds v := by
  rw [subset_iff_holds] at ha ⊢
  refine ⟨fun h v _ ↦ h v, fun h v hv ↦ h v ?_ hv⟩
  exact holds_full_some.1 (ha v hv)

/-- The union of two sets on a domain is all of it when they cover it. -/
theorem union_beq_full_iff (ha : a.subset (full (some domain)) = true)
    (hb : b.subset (full (some domain)) = true) :
    (a.union b == full (some domain)) = true ↔
      ∀ v, Within domain v → a.Holds v ∨ b.Holds v := by
  rw [subset_iff_holds] at ha hb
  simp only [beq_iff_holds, holds_union, holds_full_some] at ha hb ⊢
  refine forall_congr' fun v ↦ ⟨Iff.mpr, fun h ↦ ⟨?_, h⟩⟩
  rintro (hv | hv)
  · exact ha v hv
  · exact hb v hv

/-- **Discrete sets are exact, without a domain and on one.**  Without a domain the operations and
the questions are those on scalars and the missing value, the laws of a Boolean algebra hold of the
stored sets, and sets are equal when they hold the same.  On a finite domain the complement of a set
within the domain is finite and exact, and inclusion and covering are those within the domain. -/
theorem isExact_also_on_domain :
    (algebra.IsExact Holds ∧ algebra.IsBoolean ∧
      ∀ a b : DiscreteValues, (a == b) = true ↔ ∀ v, a.Holds v ↔ b.Holds v) ∧
    ∀ (domain : Distinct Scalar) (a b : DiscreteValues),
      a.subset (full (some domain)) = true → b.subset (full (some domain)) = true →
      ((a.complement.inter (full (some domain))).cofinite = false ∧
        ∀ v, (a.complement.inter (full (some domain))).Holds v ↔
          Within domain v ∧ ¬ a.Holds v) ∧
      (a.subset b = true ↔ ∀ v, Within domain v → a.Holds v → b.Holds v) ∧
      ((a.union b == full (some domain)) = true ↔
        ∀ v, Within domain v → a.Holds v ∨ b.Holds v) := by
  refine ⟨⟨isExact_algebra, isBoolean_algebra, beq_iff_holds⟩, fun domain a b ha hb ↦
    ⟨⟨cofinite_inter_full _ domain, fun v ↦ ?_⟩, subset_iff_within ha,
      union_beq_full_iff ha hb⟩⟩
  rw [holds_inter, holds_complement, holds_full_some, and_comm]

/-- Two kinds of waters. -/
def waterKinds : Distinct Scalar := .ofList [.text "river", .text "canal"]

/-- The rivers among the waters. -/
def onlyRivers : DiscreteValues := .only (.singleton (.text "river"))

/-- The waters that are no rivers, those of no known kind included. -/
def otherWaters : DiscreteValues := onlyRivers.complement.inter (full (some waterKinds))

/-- Rivers and other waters are all waters. -/
theorem onlyRivers_union_otherWaters :
    (onlyRivers.subset (full (some waterKinds)) = true ∧
      otherWaters.subset (full (some waterKinds)) = true) ∧
    (∀ v, otherWaters.Holds v ↔ Within waterKinds v ∧ ¬ onlyRivers.Holds v) ∧
    (onlyRivers.union otherWaters == full (some waterKinds)) = true := by
  have hrivers : onlyRivers.subset (full (some waterKinds)) = true := by decide +kernel
  have hothers : otherWaters.subset (full (some waterKinds)) = true := by decide +kernel
  obtain ⟨⟨-, hholds⟩, -, hcover⟩ :=
    isExact_also_on_domain.2 waterKinds onlyRivers otherWaters hrivers hothers
  refine ⟨⟨hrivers, hothers⟩, hholds, hcover.2 fun v hv ↦ ?_⟩
  rw [otherWaters, hholds]
  exact (Classical.em _).imp_right fun hnot ↦ ⟨hv, hnot⟩

end DiscreteValues

end RuleCoverage
