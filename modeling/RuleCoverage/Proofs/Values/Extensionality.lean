import RuleCoverage.Proofs.Values.Members

/-!
# Value sets with the same members are equal

Equality of value sets (`==`) is computed from their representation.  Since unions of intervals are
kept in canonical form and scalars are compared by their keys, it is equality of members
(`ValueSet.beq_iff`), and so an equivalence.

The one thing to see is that two canonical lists of intervals with the same points have the same
bounds (`IntervalSet.Canonical.beq_of_mem`).  Going from left to right, each interval has to start
where the other one starts and to end where it ends, because there is a point between any two
different cuts (`Interval.exists_mem_not_passed`).
-/

set_option autoImplicit false

namespace RuleCoverage

/-! ## Intervals -/

namespace Interval

variable {a b : Interval}

theorem beq_iff (a b : Interval) :
    (a == b) = true ↔ a.lowCut = b.lowCut ∧ a.highCut = b.highCut := by
  simp [BEq.beq]

instance : EquivBEq Interval where
  rfl := by simp [beq_iff]
  symm h := by
    rw [beq_iff] at h ⊢
    exact ⟨h.1.symm, h.2.symm⟩
  trans h h' := by
    rw [beq_iff] at h h' ⊢
    exact ⟨h.1.trans h'.1, h.2.trans h'.2⟩

/-- An interval that is not empty and starts before a cut holds a point before the cut. -/
theorem exists_mem_not_passed {iv : Interval} (hne : iv.lowCut < iv.highCut) {bound : Double}
    {after : Bool} (hlt : iv.lowCut < cutIndex bound after) :
    ∃ x, iv.Mem x ∧ ¬ Passed bound after x := by
  by_cases hle : iv.highCut ≤ cutIndex bound after
  · obtain ⟨x, hx⟩ := exists_mem hne
    refine ⟨x, hx, fun hpassed ↦ hx.2 (hpassed.mono ?_)⟩
    rwa [cutIndex_high]
  · -- the part before the cut
    have hbounds : iv.low ≤ bound := by
      rw [lowCut, cutIndex] at hlt
      rw [Double.le_def]
      split at hlt <;> split at hlt <;> omega
    obtain ⟨x, hstart, hend⟩ : ∃ x, Mem ⟨iv.low, bound, iv.lowIncluded, after, hbounds⟩ x :=
      exists_mem hlt
    refine ⟨x, ⟨hstart, fun hx ↦ hend (Passed.mono hx ?_)⟩, hend⟩
    rw [cutIndex_high]
    exact Int.le_of_lt (Int.not_le.1 hle)

end Interval

/-! ## Unions of intervals -/

namespace IntervalSet

namespace Canonical

variable {a b : Interval} {as bs : List Interval}

theorem tail (h : Canonical (a :: as)) : Canonical as :=
  ⟨fun iv hiv ↦ h.nonempty iv (List.mem_cons_of_mem _ hiv), (List.pairwise_cons.1 h.separated).2⟩

/-- A later interval has started only where the first one has ended. -/
theorem ended_of_started (h : Canonical (a :: as)) {iv : Interval} (hiv : iv ∈ as) {x : EReal}
    (hx : iv.Started x) : a.Ended x :=
  hx.ended (Int.le_of_lt ((List.pairwise_cons.1 h.separated).1 iv hiv))

/-- No interval starts before the first one. -/
theorem started_of_mem (h : Canonical (a :: as)) {iv : Interval} (hiv : iv ∈ a :: as) {x : EReal}
    (hx : iv.Started x) : a.Started x := by
  rcases List.mem_cons.1 hiv with rfl | hiv
  · exact hx
  · exact (h.ended_of_started hiv hx).started (Int.le_of_lt (h.nonempty a List.mem_cons_self))

theorem lowCut_le (ha : Canonical (a :: as)) (hb : b.lowCut < b.highCut)
    (h : ∀ x, b.Mem x → ∃ iv ∈ a :: as, iv.Mem x) : a.lowCut ≤ b.lowCut := by
  by_contra hlt
  rw [Int.not_le, ← Interval.cutIndex_low a] at hlt
  obtain ⟨x, hx, hnot⟩ := Interval.exists_mem_not_passed hb hlt
  obtain ⟨iv, hiv, hmem⟩ := h x hx
  exact hnot (ha.started_of_mem hiv hmem.1)

/-- Just behind the end of the first interval there is a point of any longer one, before the next
interval starts. -/
theorem highCut_le (ha : Canonical (a :: as)) (hlow : a.lowCut = b.lowCut)
    (h : ∀ x, b.Mem x → ∃ iv ∈ a :: as, iv.Mem x) : b.highCut ≤ a.highCut := by
  by_contra hlt
  rw [Int.not_le] at hlt
  have hne := ha.nonempty a List.mem_cons_self
  let rest : Interval :=
    ⟨a.high, b.high, !a.highIncluded, b.highIncluded, Interval.high_le_high_of_cuts hlt⟩
  have hrest : rest.lowCut = a.highCut := by
    show 2 * a.high.key + (if (!a.highIncluded) = true then 0 else 1) = a.highCut
    rw [Interval.highCut]
    cases a.highIncluded <;> rfl
  have hrestne : rest.lowCut < rest.highCut := hrest ▸ hlt
  have hbehind : ∃ x, rest.Mem x ∧ ∀ iv ∈ as, ¬ iv.Started x := by
    cases as with
    | nil =>
      obtain ⟨x, hx⟩ := Interval.exists_mem hrestne
      exact ⟨x, hx, by simp⟩
    | cons c cs =>
      have hc := List.rel_of_pairwise_cons ha.separated (List.mem_cons_self (a := c))
      rw [← hrest, ← Interval.cutIndex_low c] at hc
      obtain ⟨x, hx, hnot⟩ := Interval.exists_mem_not_passed hrestne hc
      exact ⟨x, hx, fun iv hiv hstart ↦ hnot (ha.tail.started_of_mem hiv hstart)⟩
  obtain ⟨x, hx, hnot⟩ := hbehind
  have hended : a.Ended x := by simpa [rest, Interval.Started, Interval.Ended] using hx.1
  obtain ⟨iv, hiv, hmem⟩ := h x ⟨hended.started (by omega), hx.2⟩
  rcases List.mem_cons.1 hiv with rfl | hiv
  · exact hmem.2 hended
  · exact hnot iv hiv hmem.1

/-- **Canonical lists of intervals with the same points are equal.** -/
theorem beq_of_mem (ha : Canonical as) (hb : Canonical bs)
    (h : ∀ x, (∃ iv ∈ as, iv.Mem x) ↔ ∃ iv ∈ bs, iv.Mem x) : (as == bs) = true := by
  induction as generalizing bs with
  | nil =>
    cases bs with
    | nil => rfl
    | cons b bs =>
      obtain ⟨x, hx⟩ := Interval.exists_mem (hb.nonempty b List.mem_cons_self)
      obtain ⟨iv, hiv, -⟩ := (h x).2 ⟨b, List.mem_cons_self, hx⟩
      cases hiv
  | cons a as ih =>
    cases bs with
    | nil =>
      obtain ⟨x, hx⟩ := Interval.exists_mem (ha.nonempty a List.mem_cons_self)
      obtain ⟨iv, hiv, -⟩ := (h x).1 ⟨a, List.mem_cons_self, hx⟩
      cases hiv
    | cons b bs =>
      have hab : ∀ x, a.Mem x → ∃ iv ∈ b :: bs, iv.Mem x :=
        fun x hx ↦ (h x).1 ⟨a, List.mem_cons_self, hx⟩
      have hba : ∀ x, b.Mem x → ∃ iv ∈ a :: as, iv.Mem x :=
        fun x hx ↦ (h x).2 ⟨b, List.mem_cons_self, hx⟩
      have hlow := Int.le_antisymm (ha.lowCut_le (hb.nonempty b List.mem_cons_self) hba)
        (hb.lowCut_le (ha.nonempty a List.mem_cons_self) hab)
      have hhigh := Int.le_antisymm (hb.highCut_le hlow.symm hab) (ha.highCut_le hlow hba)
      have hfirst := (Interval.beq_iff a b).2 ⟨hlow, hhigh⟩
      rw [List.cons_beq_cons, hfirst, Bool.true_and]
      -- the points of the rest are those that are not in the first interval
      refine ih ha.tail hb.tail fun x ↦ ⟨?_, ?_⟩
      · rintro ⟨iv, hiv, hx⟩
        obtain ⟨jv, hjv, hx'⟩ := (h x).1 ⟨iv, List.mem_cons_of_mem _ hiv, hx⟩
        rcases List.mem_cons.1 hjv with rfl | hjv
        · exact absurd (ha.ended_of_started hiv hx.1) ((Interval.mem_congr hfirst).2 hx').2
        · exact ⟨jv, hjv, hx'⟩
      · rintro ⟨iv, hiv, hx⟩
        obtain ⟨jv, hjv, hx'⟩ := (h x).2 ⟨iv, List.mem_cons_of_mem _ hiv, hx⟩
        rcases List.mem_cons.1 hjv with rfl | hjv
        · exact absurd (hb.ended_of_started hiv hx.1) ((Interval.mem_congr hfirst).1 hx').2
        · exact ⟨jv, hjv, hx'⟩

end Canonical

/-- Sets with the same points are equal. -/
theorem beq_iff_mem (s t : IntervalSet) : (s == t) = true ↔ ∀ x, s.Mem x ↔ t.Mem x :=
  ⟨fun h _ ↦ mem_congr h, s.canonical.beq_of_mem t.canonical⟩

end IntervalSet

/-! ## Value sets -/

theorem NumericValues.beq_iff (a b : NumericValues) :
    (a == b) = true ↔ ∀ v, a.Mem v ↔ b.Mem v := by
  refine ⟨fun h ↦ mem_congr h, fun h ↦ ?_⟩
  have hdef : (a == b) = (a.intervals == b.intervals && a.null == b.null) := rfl
  rw [hdef, Bool.and_eq_true, IntervalSet.beq_iff_mem, beq_iff_eq, Bool.eq_iff_iff]
  exact ⟨fun x ↦ h (some x), h none⟩

theorem Distinct.beq_iff_hasKey (s t : Distinct Scalar) : (s == t) = true ↔
    ∀ x : Scalar, s.HasKey (some x.key) ↔ t.HasKey (some x.key) := by
  rw [Distinct.beq_iff Scalar.decidedBy_key (fun _ _ ↦ trivial) fun _ _ ↦ trivial]
  simp only [hasKey_some]
  refine ⟨fun h x ↦ h x.key, fun h k ↦ ⟨?_, ?_⟩⟩
  · rintro ⟨x, hx, rfl⟩
    exact (h x).1 ⟨x, hx, rfl⟩
  · rintro ⟨x, hx, rfl⟩
    exact (h x).2 ⟨x, hx, rfl⟩

/-- Sets of discrete values are equal when they agree on the missing value, on a value without a
key, which shows their shapes, and on scalars. -/
theorem DiscreteValues.beq_iff (a b : DiscreteValues) : (a == b) = true ↔
    (a.Mem none ↔ b.Mem none) ∧ (a.Mem (some none) ↔ b.Mem (some none)) ∧
      ∀ x : Scalar, a.Mem (some (some x.key)) ↔ b.Mem (some (some x.key)) := by
  refine ⟨fun h ↦ ⟨mem_congr h _, mem_congr h _, fun x ↦ mem_congr h _⟩, ?_⟩
  rintro ⟨hnull, hother, hkey⟩
  have hnull' : a.null = b.null := Bool.eq_iff_iff.2 hnull
  have hshape : a.cofinite = b.cofinite := by
    simp only [Mem, Distinct.not_hasKey_none, not_false_iff, if_true_left, imp_false,
      Bool.not_eq_true, Bool.not_eq_false] at hother
    exact Bool.eq_iff_iff.2 hother
  have hvalues : (a.values == b.values) = true := by
    rw [Distinct.beq_iff_hasKey]
    intro x
    have hx := hkey x
    rw [Mem, Mem, hshape] at hx
    split at hx
    · exact not_iff_not.1 hx
    · exact hx
  have hdef : (a == b) = ((a.values == b.values && a.cofinite == b.cofinite) && a.null == b.null) :=
    rfl
  rw [hdef, hvalues, hshape, hnull']
  simp

namespace ValueSet

variable {a b c : ValueSet}

theorem sameShape_of_beq (h : (a == b) = true) : a.SameShape b := by
  cases a <;> cases b <;> first | rfl | cases h

/-- **Value sets of one shape with the same members are equal.** -/
theorem beq_iff (hshape : a.SameShape b) : (a == b) = true ↔ ∀ v, a.Mem v ↔ b.Mem v := by
  refine ⟨fun h v ↦ mem_congr h v, fun h ↦ ?_⟩
  cases a with
  | numeric a =>
    cases b with
    | discrete b => cases hshape
    | numeric b =>
      refine (NumericValues.beq_iff a b).2 fun v ↦ ?_
      have hv := h (v.map Value.number)
      rwa [Mem, Mem, Option.map_map, show Value.toEReal ∘ Value.number = id from rfl,
        Option.map_id_fun, id] at hv
  | discrete a =>
    cases b with
    | numeric b => cases hshape
    | discrete b =>
      exact (DiscreteValues.beq_iff a b).2
        ⟨h none, h (some (.number 0)), fun x ↦ h (some (.literal (.scalar x)))⟩

instance : EquivBEq ValueSet where
  rfl := (beq_iff rfl).2 fun _ ↦ Iff.rfl
  symm h := by
    have hshape := sameShape_of_beq h
    rw [beq_iff hshape] at h
    exact (beq_iff hshape.symm).2 fun v ↦ (h v).symm
  trans h h' := by
    have hshape := sameShape_of_beq h
    have hshape' := sameShape_of_beq h'
    rw [beq_iff hshape] at h
    rw [beq_iff hshape'] at h'
    exact (beq_iff (hshape.trans hshape')).2 fun v ↦ (h v).trans (h' v)

end ValueSet

end RuleCoverage
