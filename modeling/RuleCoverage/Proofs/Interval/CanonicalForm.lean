import Mathlib.Order.Interval.Set.Infinite
import RuleCoverage.Proofs.Interval.Keys
import RuleCoverage.Proofs.Interval.Spelling

/-!
# The canonical form of a union of intervals

A list of intervals is brought into canonical form in one pass: the intervals that are not empty are
sorted by their keys, and each is merged into the last one kept when the two overlap or the last one
touches it.  Since the starts ascend, an overlap or a touch is the same as having no gap before the
next start (`Interval.intersects_or_touches_iff`), so the pass keeps what `IntervalSet.normalize`
keeps, and the bounds that it puts together are never reversed (`IntervalSet.mergeInPlace_eq`).

What is kept has a point missing between any two intervals (`IntervalSet.Apart`).
`IntervalSet.ofList_canonical` collects what follows: sets are equal when they hold the same points,
and a set is finite exactly when its points can be listed.
-/

set_option autoImplicit false

namespace RuleCoverage

/-! ## Bounds and points -/

namespace Interval

variable {a b last iv : Interval}

/-- Equal intervals have equal bounds, which belong to both or to neither. -/
theorem beq_iff_bounds : (a == b) = true ↔ (a.low.key = b.low.key ∧ a.high.key = b.high.key) ∧
    a.lowIncluded = b.lowIncluded ∧ a.highIncluded = b.highIncluded := by
  rw [beq_iff, lowCut, lowCut, highCut, highCut]
  cases a.lowIncluded <;> cases b.lowIncluded <;> cases a.highIncluded <;>
    cases b.highIncluded <;> simp <;> omega

/-- An interval that is more than one number holds infinitely many points. -/
theorem infinite_mem (hne : iv.lowCut < iv.highCut) (hpoint : iv.isPoint = false) :
    {x | iv.Mem x}.Infinite := by
  have hlt : iv.low.key < iv.high.key := by
    have hle := iv.low_le_high
    rw [Double.le_def] at hle
    refine lt_of_le_of_ne hle fun hkey ↦ Bool.eq_false_iff.1 hpoint ?_
    rw [lowCut, highCut] at hne
    rw [isPoint, Bool.and_eq_true, Bool.and_eq_true, Double.beq_iff]
    cases hl : iv.lowIncluded <;> cases hh : iv.highIncluded <;> simp [hl, hh] at hne ⊢ <;> omega
  refine (Set.Ioo_infinite (Double.toEReal_lt_toEReal.2 hlt)).mono ?_
  rintro x ⟨hlow, hhigh⟩
  exact (iv.mem_iff x).2 ⟨.inl hlow, .inl hhigh⟩

/-- A start is just before or just after its bound. -/
theorem lowCut_bounds (iv : Interval) :
    2 * iv.low.key ≤ iv.lowCut ∧ iv.lowCut ≤ 2 * iv.low.key + 1 := by
  rw [lowCut]
  split <;> omega

/-- An end is just before or just after its bound. -/
theorem highCut_bounds (iv : Interval) :
    2 * iv.high.key ≤ iv.highCut ∧ iv.highCut ≤ 2 * iv.high.key + 1 := by
  rw [highCut]
  split <;> omega

/-- An interval touches the next one when they meet in a bound and leave no gap there. -/
theorem touches_iff (a b : Interval) :
    a.touches b = true ↔ a.high.key = b.low.key ∧ b.lowCut ≤ a.highCut := by
  rw [touches, Bool.and_eq_true, Double.beq_iff, Bool.or_eq_true, lowCut, highCut]
  refine and_congr_right fun hkey ↦ ?_
  rw [hkey]
  cases a.highIncluded <;> cases b.lowIncluded <;> simp

/-- **In order of their starts, two intervals overlap or touch just when they leave no gap.** -/
theorem intersects_or_touches_iff (hle : last.lowCut ≤ iv.lowCut) (hiv : iv.lowCut < iv.highCut) :
    (last.intersects iv || last.touches iv) = true ↔ iv.lowCut ≤ last.highCut := by
  rw [Bool.or_eq_true, intersects, isSome_intersect?_iff, touches_iff]
  constructor
  · omega
  · intro hmeet
    rcases Int.lt_or_eq_of_le hmeet with hlt | heq
    · exact .inl (by omega)
    · -- the end of the one is the start of the other, so they meet in one number
      have hhigh := last.highCut_bounds
      have hlow := iv.lowCut_bounds
      exact .inr ⟨by omega, hmeet⟩

/-- Intervals with a gap in between share no point. -/
theorem intersect?_eq_none_of_gap (h : a.highCut < b.lowCut) : a.intersect? b = none := by
  rw [← Option.not_isSome_iff_eq_none, isSome_intersect?_iff]
  omega

/-- Intervals with a gap in between touch in neither order. -/
theorem touches_eq_false_of_gap (ha : a.lowCut < a.highCut) (h : a.highCut < b.lowCut) :
    a.touches b = false ∧ b.touches a = false := by
  have hlow := a.lowCut_bounds
  have hstart := b.lowCut_bounds
  have hle := b.low_le_high
  rw [Double.le_def] at hle
  rw [← Bool.not_eq_true, ← Bool.not_eq_true, touches_iff, touches_iff]
  omega

end Interval

/-! ## One pass over the sorted intervals -/

namespace IntervalSet

variable {ivs rest : List Interval} {last iv : Interval}

/-- Merges an interval into the last one kept, or keeps it as the new last one. -/
def mergeNext (kept : List Interval) (iv : Interval) : Except Error (List Interval) :=
  match kept.getLast? with
  | none => return [iv]
  | some last => do
    if (← last.intersectByKeys iv).isSome || last.touches iv then
      let hi := if Interval.boundKey iv.highKey ≤ Interval.boundKey last.highKey then last else iv
      let merged ← Interval.ofReadings (.number last.low) (.number hi.high) last.lowIncluded
        hi.highIncluded
      return kept.dropLast ++ [merged]
    else return kept ++ [iv]

/-- Merges the intervals that are not empty in the order of their keys. -/
def mergeInPlace (ivs : List Interval) : Except Error (List Interval) :=
  ((ivs.filter fun iv ↦ !iv.isEmptyByBounds).mergeSort fun a b ↦
    decide (a.sortKey ≤ b.sortKey)).foldlM mergeNext []

/-- One step on a list that is not empty. -/
theorem mergeNext_append (kept : List Interval) (hle : last.lowCut ≤ iv.lowCut)
    (hiv : iv.lowCut < iv.highCut) :
    mergeNext (kept ++ [last]) iv = .ok
      (if iv.lowCut ≤ last.highCut then kept ++ [last.extend iv] else kept ++ [last] ++ [iv]) := by
  have hjoin := Interval.intersects_or_touches_iff hle hiv
  rw [Interval.intersects] at hjoin
  rw [mergeNext, List.getLast?_concat, List.dropLast_concat]
  simp only [Interval.intersectByKeys_eq, Interval.highKey_le_iff]
  by_cases hmeet : iv.lowCut ≤ last.highCut
  · rw [if_pos hmeet]
    have hextend : ∀ hi : Interval, hi = (if iv.highCut ≤ last.highCut then last else iv) →
        Interval.ofReadings (.number last.low) (.number hi.high) last.lowIncluded
          hi.highIncluded = .ok (last.extend iv) := by
      rintro hi rfl
      rw [Interval.extend]
      by_cases hlt : last.highCut < iv.highCut
      · rw [if_neg (Int.not_le.2 hlt), dif_pos hlt]
        exact Interval.ofReadings_of_le _ _ _
      · rw [if_pos (Int.not_lt.1 hlt), dif_neg hlt]
        exact Interval.ofReadings_of_le last.low_le_high _ _
    show (if ((last.intersect? iv).isSome || last.touches iv) = true then _ else _) = _
    rw [if_pos (hjoin.2 hmeet), hextend _ rfl]
    rfl
  · rw [if_neg hmeet]
    show (if ((last.intersect? iv).isSome || last.touches iv) = true then _ else _) = _
    rw [if_neg fun h ↦ hmeet (hjoin.1 h)]
    rfl

/-- From a last interval on, the steps keep what joining the rest to it gives. -/
theorem foldlM_mergeNext (kept : List Interval) (h : Ascending (last :: rest))
    (hne : ∀ iv ∈ rest, iv.lowCut < iv.highCut) :
    rest.foldlM mergeNext (kept ++ [last]) = .ok (kept ++ joinSorted last rest) := by
  induction rest generalizing kept last with
  | nil => rfl
  | cons iv rest ih =>
    have hle : last.lowCut ≤ iv.lowCut := List.rel_of_pairwise_cons h List.mem_cons_self
    rw [List.forall_mem_cons] at hne
    rw [List.foldlM_cons, mergeNext_append kept hle hne.1, joinSorted]
    split
    · exact ih kept (ascending_extend h) hne.2
    · have hstep := ih (kept ++ [last]) (List.pairwise_cons.1 h).2 hne.2
      rwa [List.append_assoc kept [last] (joinSorted iv rest)] at hstep

/-- **The pass never fails** and keeps the canonical form. -/
theorem mergeInPlace_eq (ivs : List Interval) : mergeInPlace ivs = .ok (normalize ivs) := by
  have horder : (fun a b : Interval ↦ decide (a.sortKey ≤ b.sortKey)) = Interval.precedes := by
    funext a b
    rw [Bool.eq_iff_iff, Interval.precedes_iff_sortKey, decide_eq_true_iff]
  have hsorted := List.pairwise_mergeSort Interval.precedes_trans Interval.precedes_total
    (ivs.filter fun iv ↦ !iv.isEmpty)
  have hne : ∀ iv ∈ (ivs.filter fun iv ↦ !iv.isEmpty).mergeSort Interval.precedes,
      iv.lowCut < iv.highCut := by
    intro iv hiv
    simpa [Interval.isEmpty] using (List.mem_filter.1 (List.mem_mergeSort.1 hiv)).2
  simp only [mergeInPlace, Interval.isEmptyByBounds_eq, horder]
  rw [normalize]
  cases hlist : (ivs.filter fun iv ↦ !iv.isEmpty).mergeSort Interval.precedes with
  | nil => rfl
  | cons first rest =>
    rw [hlist] at hsorted hne
    refine foldlM_mergeNext [] (hsorted.imp fun h ↦ ?_) (List.forall_mem_cons.1 hne).2
    rw [Interval.precedes_iff] at h
    omega

/-! ## Gaps -/

variable {a b : Interval} {as : List Interval} {s : IntervalSet}

/-- Behind the end of the first interval a point is missing before the others start. -/
theorem Canonical.exists_gap (h : Canonical (a :: as)) (hb : b ∈ as) :
    ∃ z, a.Ended z ∧ ∀ iv ∈ as, ¬ iv.Started z := by
  cases as with
  | nil => cases hb
  | cons c cs =>
    have hgap : a.highCut < c.lowCut := List.rel_of_pairwise_cons h.separated List.mem_cons_self
    have hbounds : a.high ≤ c.low := by
      rw [Interval.highCut, Interval.lowCut] at hgap
      rw [Double.le_def]
      split at hgap <;> split at hgap <;> omega
    let gap : Interval := ⟨a.high, c.low, !a.highIncluded, !c.lowIncluded, hbounds⟩
    have hlow : gap.lowCut = a.highCut := by
      rw [← Interval.cutIndex_low, ← Interval.cutIndex_high]
      simp only [gap, Bool.not_not]
    have hhigh : gap.highCut = c.lowCut := by
      rw [← Interval.cutIndex_low, ← Interval.cutIndex_high]
    obtain ⟨z, hstart, hend⟩ := Interval.exists_mem (show gap.lowCut < gap.highCut by omega)
    refine ⟨z, by simpa [gap, Interval.Started, Interval.Ended] using hstart, ?_⟩
    intro iv hiv hz
    exact hend (h.tail.started_of_mem hiv hz)

/-- Between any two intervals of a canonical list a point is missing. -/
theorem Canonical.pairwise_gap (h : Canonical as) : as.Pairwise fun a b ↦
    ∃ z, (∀ iv ∈ as, ¬ iv.Mem z) ∧ a.Ended z ∧ ¬ b.Started z := by
  induction as with
  | nil => exact .nil
  | cons a as ih =>
    refine List.pairwise_cons.2 ⟨fun b hb ↦ ?_, (ih h.tail).imp_of_mem ?_⟩
    · obtain ⟨z, hended, hnot⟩ := h.exists_gap hb
      refine ⟨z, List.forall_mem_cons.2 ⟨fun hz ↦ hz.2 hended, ?_⟩, hended, hnot b hb⟩
      exact fun iv hiv hz ↦ hnot iv hiv hz.1
    · -- a gap between later intervals lies behind the end of the first one
      rintro p q hp - ⟨z, hmissing, hended, hnot⟩
      have hstarted : p.Started z := hended.started (Int.le_of_lt (h.tail.nonempty p hp))
      have hfirst : ¬ a.Mem z := fun hz ↦ hz.2 (h.ended_of_started hp hstarted)
      exact ⟨z, List.forall_mem_cons.2 ⟨hfirst, hmissing⟩, hended, hnot⟩

/-- The first of two intervals is before the second, the two neither overlap nor touch, and the set
misses a point in between. -/
structure Apart (s : IntervalSet) (a b : Interval) : Prop where
  ordered : a.sortKey < b.sortKey
  disjoint : a.intersect? b = none
  not_touching : a.touches b = false ∧ b.touches a = false
  gap : ∃ z, ¬ s.Mem z ∧ (∀ x, a.Mem x → x < z) ∧ ∀ y, b.Mem y → z < y

/-- **The intervals of a set are apart.** -/
theorem pairwise_apart (s : IntervalSet) : s.intervals.Pairwise s.Apart := by
  have h := s.canonical
  refine (h.separated.and h.pairwise_gap).imp_of_mem ?_
  rintro a b ha hb ⟨hcuts, z, hmissing, hended, hnot⟩
  have hane := h.nonempty a ha
  refine ⟨Interval.sortKey_lt_iff.2 (.inl (by omega)), Interval.intersect?_eq_none_of_gap hcuts,
    Interval.touches_eq_false_of_gap hane hcuts, z, ?_, ?_, ?_⟩
  · rintro ⟨iv, hiv, hz⟩
    exact hmissing iv hiv hz
  · exact fun x hx ↦ Interval.lt_of_passed hx.2 hended
  · exact fun y hy ↦ Interval.lt_of_passed hnot hy.1

/-! ## Finite sets -/

theorem contains_iff_mem (s : IntervalSet) (d : Double) :
    s.contains d = true ↔ s.Mem d.toEReal := by
  simp only [contains, List.any_eq_true, Mem, Interval.contains_iff_mem]

/-- **The points of a set can be listed exactly when there are finitely many.** -/
theorem exists_points?_iff (s : IntervalSet) :
    (∃ xs, s.points? = some xs) ↔ {x | s.Mem x}.Finite := by
  constructor
  · rintro ⟨xs, hxs⟩
    have hset : {x | s.Mem x} = Double.toEReal '' {d | d ∈ xs} := by
      ext x
      simp only [Set.mem_ofPred_eq, mem_of_points? hxs x, Set.mem_image, eq_comm]
    rw [hset]
    exact (List.finite_toSet xs).image _
  · intro hfinite
    refine ⟨_, points?_eq_some.2 ⟨fun iv hiv ↦ ?_, rfl⟩⟩
    by_contra hpoint
    rw [Bool.not_eq_true] at hpoint
    have hinfinite := Interval.infinite_mem (s.canonical.nonempty iv hiv) hpoint
    exact hinfinite (hfinite.subset fun x hx ↦ ⟨iv, hiv, hx⟩)

theorem isFull_iff (s : IntervalSet) : s.isFull = true ↔ ∀ x, s.Mem x := by
  rw [isFull, beq_iff_mem]
  simp

/-! ## The canonical form -/

/-- **Unions of intervals are kept in canonical form.**  The intervals kept are what one pass over
the sorted intervals keeps; none is empty, any two are apart, and they hold the points of the given
ones.  Two unions are equal exactly when they hold the same points, and what equals the whole line
holds all of them.  The points can be listed exactly when they are finitely many, in increasing
order. -/
theorem ofList_canonical (ivs jvs : List Interval) :
    (mergeInPlace ivs = .ok (ofList ivs).intervals ∧
      (∀ iv ∈ (ofList ivs).intervals, iv.isEmpty = false) ∧
      (ofList ivs).intervals.Pairwise (ofList ivs).Apart ∧
      (∀ x, (ofList ivs).Mem x ↔ ∃ iv ∈ ivs, iv.Mem x) ∧
      ∀ d, (ofList ivs).contains d = true ↔ (ofList ivs).Mem d.toEReal) ∧
    ((ofList ivs == ofList jvs) = true ↔ ∀ x, (ofList ivs).Mem x ↔ (ofList jvs).Mem x) ∧
    ((ofList ivs).isFull = true ↔ ∀ x, (ofList ivs).Mem x) ∧
    ((∃ xs, (ofList ivs).points? = some xs) ↔ {x | (ofList ivs).Mem x}.Finite) ∧
    ∀ xs, (ofList ivs).points? = some xs →
      (xs.Pairwise fun d e ↦ d.toEReal < e.toEReal) ∧
        ∀ x, (ofList ivs).Mem x ↔ ∃ d ∈ xs, x = d.toEReal := by
  refine ⟨⟨mergeInPlace_eq ivs, ?_, pairwise_apart _, mem_ofList ivs, contains_iff_mem _⟩,
    beq_iff_mem _ _, isFull_iff _, exists_points?_iff _, ?_⟩
  · intro iv hiv
    rw [Interval.isEmpty_eq_false_iff]
    exact Interval.exists_mem ((ofList ivs).canonical.nonempty iv hiv)
  · intro xs hxs
    refine ⟨(ascendingKeys_of_points? hxs).imp fun hlt ↦ ?_, mem_of_points? hxs⟩
    exact Double.toEReal_lt_toEReal.2 hlt

end IntervalSet

end RuleCoverage
