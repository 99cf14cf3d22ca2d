import RuleCoverage.Interval.Basic
import RuleCoverage.Proofs.Number.Line

/-!
# The points of an interval

`Interval.Mem iv x` says that the point `x` of the extended real line lies in the interval `iv`.
Intervals are computed with on *cuts*, which are integers; this file says what the operations do to
the points.

A point has either passed a cut or not, and a point that has passed a cut has passed every earlier
one (`Passed.mono`).  An interval holds the points that have passed its start (`Interval.Started`)
and not its end (`Interval.Ended`).  That is all that is ever used of the line, except that between
two different doubles there is always another point, so an interval that is not empty as a pair of
cuts does hold a point (`Interval.exists_mem`) — although it need not hold a double.

## What is here

* `Interval.mem_intersect?`, `Interval.mem_subtract`, `Interval.mem_extend` — overlap, difference
  and hull as operations on points.
* `Interval.contains_iff` — for a double, lying in an interval is a question about its key.
* `Interval.countP_subtract` — the parts of a difference do not overlap.
-/

set_option autoImplicit false

namespace RuleCoverage

/-! ## Cuts of the line -/

/-- The point `x` lies behind the cut just before `bound`, or just after it. -/
def Passed (bound : Double) (after : Bool) (x : EReal) : Prop :=
  bound.toEReal < x ∨ after = false ∧ bound.toEReal = x

/-- The place of a cut among all cuts. -/
def cutIndex (bound : Double) (after : Bool) : Int := 2 * bound.key + if after then 1 else 0

/-- **A point that has passed a cut has passed every earlier one.** -/
theorem Passed.mono {d e : Double} {a b : Bool} {x : EReal} (h : Passed e b x)
    (hle : cutIndex d a ≤ cutIndex e b) : Passed d a x := by
  simp only [cutIndex] at hle
  have hkey : d.key ≤ e.key := by split at hle <;> split at hle <;> omega
  rcases Int.lt_or_eq_of_le hkey with hlt | heq
  · have hde := Double.toEReal_lt_toEReal.2 hlt
    rcases h with h | ⟨-, h⟩
    · exact .inl (hde.trans h)
    · exact .inl (h ▸ hde)
  · have hde := Double.toEReal_inj.2 heq
    rcases h with h | ⟨hb, h⟩
    · exact .inl (hde ▸ h)
    · -- both cuts are at one number, and the later one stands before it
      refine .inr ⟨?_, hde.trans h⟩
      cases a
      · rfl
      · simp [hb, heq] at hle

/-- A double lies behind a cut when twice its key does, the cut before it included. -/
theorem passed_toEReal_iff {d x : Double} {a : Bool} :
    Passed d a x.toEReal ↔ cutIndex d a ≤ 2 * x.key := by
  rw [Passed, Double.toEReal_lt_toEReal, Double.toEReal_inj, cutIndex]
  cases a with
  | false =>
    rw [if_neg Bool.false_ne_true, and_iff_right rfl]
    omega
  | true =>
    rw [if_pos rfl, or_iff_left fun h ↦ Bool.noConfusion h.1]
    omega

namespace Interval

variable {a b : Interval} {x : EReal}

/-! ## Starting and ending -/

/-- The point lies behind the start of the interval. -/
def Started (iv : Interval) (x : EReal) : Prop := Passed iv.low (!iv.lowIncluded) x

/-- The point lies behind the end of the interval. -/
def Ended (iv : Interval) (x : EReal) : Prop := Passed iv.high iv.highIncluded x

/-- The point lies in the interval. -/
def Mem (iv : Interval) (x : EReal) : Prop := iv.Started x ∧ ¬ iv.Ended x

/-- A point lies in an interval when it is between the bounds or is a bound that belongs to it. -/
theorem mem_iff (iv : Interval) (x : EReal) : iv.Mem x ↔
    (iv.low.toEReal < x ∨ iv.lowIncluded = true ∧ iv.low.toEReal = x) ∧
      (x < iv.high.toEReal ∨ iv.highIncluded = true ∧ x = iv.high.toEReal) := by
  rw [Mem, Started, Ended, Passed, Passed]
  refine and_congr ?_ ?_
  · cases iv.lowIncluded <;> simp
  · rcases lt_trichotomy x iv.high.toEReal with h | rfl | h
    · simp [h, h.not_gt, h.ne']
    · cases iv.highIncluded <;> simp
    · simp [h, h.not_gt, h.ne']

theorem cutIndex_low (iv : Interval) : cutIndex iv.low (!iv.lowIncluded) = iv.lowCut := by
  rw [cutIndex, lowCut]
  cases iv.lowIncluded <;> rfl

theorem cutIndex_high (iv : Interval) : cutIndex iv.high iv.highIncluded = iv.highCut := by
  rw [cutIndex, highCut]

theorem Started.mono (h : b.Started x) (hle : a.lowCut ≤ b.lowCut) : a.Started x := by
  refine Passed.mono h ?_
  rwa [cutIndex_low, cutIndex_low]

theorem Ended.mono (h : b.Ended x) (hle : a.highCut ≤ b.highCut) : a.Ended x := by
  refine Passed.mono h ?_
  rwa [cutIndex_high, cutIndex_high]

theorem Ended.started (h : a.Ended x) (hle : b.lowCut ≤ a.highCut) : b.Started x := by
  refine Passed.mono h ?_
  rwa [cutIndex_low, cutIndex_high]

theorem Started.ended (h : b.Started x) (hle : a.highCut ≤ b.lowCut) : a.Ended x := by
  refine Passed.mono h ?_
  rwa [cutIndex_low, cutIndex_high]

/-! ## Emptiness -/

theorem isEmpty_iff (iv : Interval) : iv.isEmpty = true ↔ iv.highCut ≤ iv.lowCut := by
  simp [isEmpty]

/-- **An interval that is not empty holds a point**: its bound, if it is a single number, and
otherwise any point between its bounds. -/
theorem exists_mem {iv : Interval} (h : iv.lowCut < iv.highCut) : ∃ x, iv.Mem x := by
  rcases Int.lt_or_eq_of_le iv.low_le_high with hlt | heq
  · obtain ⟨x, hlow, hhigh⟩ := exists_between (Double.toEReal_lt_toEReal.2 hlt)
    refine ⟨x, .inl hlow, ?_⟩
    intro hend
    rcases hend with hend | ⟨-, hend⟩
    · exact lt_asymm hhigh hend
    · exact hhigh.ne hend.symm
  · have hboth : iv.lowIncluded = true ∧ iv.highIncluded = true := by
      rw [lowCut, highCut, heq] at h
      cases hl : iv.lowIncluded <;> cases hh : iv.highIncluded <;> simp [hl, hh] at h ⊢
    refine ⟨iv.low.toEReal, .inr ⟨by simp [hboth.1], rfl⟩, ?_⟩
    intro hend
    rw [Ended, passed_toEReal_iff, cutIndex_high, highCut, heq, if_pos hboth.2] at hend
    omega

theorem isEmpty_iff_forall (iv : Interval) : iv.isEmpty = true ↔ ∀ x, ¬ iv.Mem x := by
  constructor
  · intro h x hx
    exact hx.2 (hx.1.ended (iv.isEmpty_iff.1 h))
  · intro h
    by_contra hne
    rw [isEmpty_iff, Int.not_le] at hne
    obtain ⟨x, hx⟩ := exists_mem hne
    exact h x hx

/-! ## Overlap -/

/-- The overlap runs from the later one of the starts to the earlier one of the ends. -/
theorem intersect?_eq (a b : Interval) : ∃ lo hi : Interval,
    lo = (if b.lowCut ≤ a.lowCut then a else b) ∧ hi = (if a.highCut ≤ b.highCut then a else b) ∧
    a.intersect? b = if h : lo.lowCut < hi.highCut then
      some ⟨lo.low, hi.high, lo.lowIncluded, hi.highIncluded, low_le_high_of_cuts h⟩ else none :=
  ⟨_, _, rfl, rfl, rfl⟩

theorem mem_intersect? (a b : Interval) (x : EReal) :
    (∃ c, a.intersect? b = some c ∧ c.Mem x) ↔ a.Mem x ∧ b.Mem x := by
  obtain ⟨lo, hi, hlo, hhi, heq⟩ := intersect?_eq a b
  have hstart : lo.Started x ↔ a.Started x ∧ b.Started x := by
    split at hlo <;> subst hlo
    · exact ⟨fun hs ↦ ⟨hs, hs.mono ‹_›⟩, And.left⟩
    · exact ⟨fun hs ↦ ⟨hs.mono (by omega), hs⟩, And.right⟩
  have hend : hi.Ended x ↔ a.Ended x ∨ b.Ended x := by
    split at hhi <;> subst hhi
    · exact ⟨.inl, fun he ↦ he.elim id fun he ↦ he.mono ‹_›⟩
    · exact ⟨.inr, fun he ↦ he.elim (fun he ↦ he.mono (by omega)) id⟩
  have hmem : a.Mem x ∧ b.Mem x ↔ lo.Started x ∧ ¬ hi.Ended x := by
    rw [hstart, hend, Mem, Mem]
    grind
  rw [hmem, heq]
  split
  · simp [Mem, Started, Ended]
  · constructor
    · rintro ⟨c, hc, -⟩
      cases hc
    · rintro ⟨hs, he⟩
      exact absurd (hs.ended (by omega)) he

theorem isSome_intersect?_iff (a b : Interval) :
    (a.intersect? b).isSome = true ↔ max a.lowCut b.lowCut < min a.highCut b.highCut := by
  obtain ⟨lo, hi, hlo, hhi, heq⟩ := intersect?_eq a b
  have hcuts : lo.lowCut = max a.lowCut b.lowCut ∧ hi.highCut = min a.highCut b.highCut := by
    split at hlo <;> split at hhi <;> subst hlo hhi <;> omega
  rw [heq, ← hcuts.1, ← hcuts.2]
  by_cases hlt : lo.lowCut < hi.highCut
  · rw [dif_pos hlt, Option.isSome_some, iff_true_left rfl]
    exact hlt
  · rw [dif_neg hlt, Option.isSome_none, iff_false_left Bool.false_ne_true]
    exact hlt

/-- An intersection is never empty. -/
theorem nonempty_of_intersect? {c : Interval} (h : a.intersect? b = some c) :
    c.lowCut < c.highCut := by
  obtain ⟨lo, hi, -, -, heq⟩ := intersect?_eq a b
  rw [heq] at h
  split at h
  · rename_i hlt
    cases h
    exact hlt
  · cases h

/-! ## Difference -/

theorem mem_before? (a b : Interval) (x : EReal) :
    (∃ p, a.before? b = some p ∧ p.Mem x) ↔ a.Started x ∧ ¬ b.Started x := by
  rw [before?]
  split
  · simp [Mem, Started, Ended]
  · rename_i h
    constructor
    · rintro ⟨p, hp, -⟩
      cases hp
    · rintro ⟨ha, hb⟩
      exact absurd (ha.mono (by omega)) hb

theorem mem_after? (a b : Interval) (x : EReal) :
    (∃ p, a.after? b = some p ∧ p.Mem x) ↔ b.Ended x ∧ ¬ a.Ended x := by
  rw [after?]
  split
  · simp [Mem, Started, Ended]
  · rename_i h
    constructor
    · rintro ⟨p, hp, -⟩
      cases hp
    · rintro ⟨hb, ha⟩
      exact absurd (hb.mono (by omega)) ha

theorem mem_subtract (a b : Interval) (x : EReal) :
    (∃ p ∈ a.subtract b, p.Mem x) ↔ a.Mem x ∧ ¬ b.Mem x := by
  rw [subtract]
  split
  · rename_i hempty
    have := (a.isEmpty_iff_forall).1 hempty x
    simp [this]
  split
  · rename_i hmeet
    rw [intersects, isSome_intersect?_iff] at hmeet
    -- dropping empty pieces loses no point
    have hpieces : (∃ p ∈ ((a.before? b).toList ++ (a.after? b).toList).filter
          fun p ↦ !p.isEmpty, p.Mem x) ↔
        (∃ p, a.before? b = some p ∧ p.Mem x) ∨ ∃ p, a.after? b = some p ∧ p.Mem x := by
      simp only [List.mem_filter, List.mem_append, Option.mem_toList, Bool.not_eq_true']
      constructor
      · rintro ⟨p, ⟨hp | hp, -⟩, hx⟩
        · exact .inl ⟨p, hp, hx⟩
        · exact .inr ⟨p, hp, hx⟩
      · have hne : ∀ p : Interval, p.Mem x → p.isEmpty = false := fun p hp ↦ by
          cases he : p.isEmpty with
          | false => rfl
          | true => exact absurd hp ((p.isEmpty_iff_forall).1 he x)
        rintro (⟨p, hp, hx⟩ | ⟨p, hp, hx⟩)
        · exact ⟨p, ⟨.inl hp, hne p hx⟩, hx⟩
        · exact ⟨p, ⟨.inr hp, hne p hx⟩, hx⟩
    rw [hpieces, mem_before?, mem_after?, Mem, Mem]
    have hs : a.Ended x → b.Started x := fun h ↦ h.started (by omega)
    have he : b.Ended x → a.Started x := fun h ↦ h.started (by omega)
    by_cases hbs : b.Started x <;> by_cases hbe : b.Ended x <;> simp_all
  · rename_i hmeet
    have hdisjoint : ¬ (a.Mem x ∧ b.Mem x) := by
      rw [← mem_intersect?]
      rintro ⟨c, hc, -⟩
      exact hmeet (by rw [intersects, hc, Option.isSome_some])
    simp only [List.mem_singleton, exists_eq_left]
    grind

/-- The parts that a subtraction leaves are not empty. -/
theorem isEmpty_of_mem_subtract {piece : Interval} (h : piece ∈ a.subtract b) :
    piece.isEmpty = false := by
  rw [subtract] at h
  split at h
  · cases h
  rename_i hne
  split at h
  · simpa using (List.mem_filter.1 h).2
  · rw [List.mem_singleton.1 h]
    exact Bool.eq_false_iff.2 hne

/-- A subtraction leaves at most a part before and a part after. -/
theorem length_subtract_le (a b : Interval) : (a.subtract b).length ≤ 2 := by
  rw [subtract]
  split
  · exact Nat.zero_le 2
  split
  · refine (List.length_filter_le _ _).trans ?_
    rw [List.length_append]
    exact Nat.add_le_add Option.length_toList_le Option.length_toList_le
  · exact Nat.le_succ 1

/-! ## Hull -/

/-- Extending an interval by one that starts later, with no gap between them, adds its points. -/
theorem mem_extend (hle : a.lowCut ≤ b.lowCut) (hmeet : b.lowCut ≤ a.highCut) :
    (a.extend b).Mem x ↔ a.Mem x ∨ b.Mem x := by
  have hs : b.Started x → a.Started x := fun h ↦ h.mono hle
  have he : a.Ended x → b.Started x := fun h ↦ h.started hmeet
  rw [extend]
  split
  · rename_i hlt
    have hb : b.Ended x → a.Ended x := fun h ↦ h.mono (by omega)
    show a.Started x ∧ ¬ b.Ended x ↔ _
    rw [Mem, Mem]
    grind
  · rename_i hlt
    have ha : a.Ended x → b.Ended x := fun h ↦ h.mono (by omega)
    rw [Mem, Mem]
    grind

/-! ## Equal intervals, points and doubles -/

/-- Equal intervals hold the same points. -/
theorem mem_congr (h : (a == b) = true) : a.Mem x ↔ b.Mem x := by
  have hcuts : a.lowCut = b.lowCut ∧ a.highCut = b.highCut := by simpa [BEq.beq] using h
  refine and_congr ⟨fun hs ↦ hs.mono (by omega), fun hs ↦ hs.mono (by omega)⟩ (not_congr ?_)
  exact ⟨fun he ↦ he.mono (by omega), fun he ↦ he.mono (by omega)⟩

theorem mem_point (d : Double) (x : EReal) : (point d).Mem x ↔ x = d.toEReal := by
  simp only [Mem, Started, Ended, Passed, point, Bool.not_true]
  constructor
  · rintro ⟨h | ⟨-, h⟩, hn⟩
    · exact absurd (.inl h) hn
    · exact h.symm
  · rintro rfl
    simp

theorem mem_of_isPoint {iv : Interval} (h : iv.isPoint = true) (x : EReal) :
    iv.Mem x ↔ x = iv.low.toEReal := by
  simp only [isPoint, Bool.and_eq_true, Double.beq_iff] at h
  rw [← mem_point]
  refine mem_congr ?_
  simp [BEq.beq, lowCut, highCut, point, h.1.2, h.2, h.1.1]

theorem mem_realLine (x : EReal) : realLine.Mem x := by
  simp only [Mem, Started, Ended, Passed, realLine, Double.toEReal_negInf, Double.toEReal_posInf]
  refine ⟨?_, ?_⟩
  · rcases eq_or_lt_of_le (bot_le (a := x)) with h | h
    · exact .inr ⟨rfl, h⟩
    · exact .inl h
  · simp

/-- For a double, lying in an interval is a question about cuts. -/
theorem contains_iff (iv : Interval) (d : Double) :
    iv.contains d = true ↔ iv.lowCut ≤ 2 * d.key ∧ 2 * d.key < iv.highCut := by
  simp only [contains, Bool.and_eq_true, Bool.or_eq_true, decide_eq_true_eq, Double.lt_def,
    Double.beq_iff, lowCut, highCut]
  cases iv.lowIncluded <;> cases iv.highIncluded <;> simp <;> omega

theorem contains_iff_mem (iv : Interval) (d : Double) :
    iv.contains d = true ↔ iv.Mem d.toEReal := by
  rw [contains_iff, Mem, Started, Ended, passed_toEReal_iff, passed_toEReal_iff, cutIndex_low,
    cutIndex_high, Int.not_le]

/-! ## Parts of a difference -/

theorem contains_eq (iv : Interval) (d : Double) :
    iv.contains d = decide (iv.lowCut ≤ 2 * d.key ∧ 2 * d.key < iv.highCut) := by
  rw [Bool.eq_iff_iff, contains_iff, decide_eq_true_iff]

theorem toNat_contains_and_not (a b : Interval) (d : Double) :
    (a.contains d && !b.contains d).toNat =
      if (a.lowCut ≤ 2 * d.key ∧ 2 * d.key < a.highCut) ∧
        ¬ (b.lowCut ≤ 2 * d.key ∧ 2 * d.key < b.highCut) then 1 else 0 := by
  rw [contains_eq, contains_eq, ← decide_not, ← Bool.decide_and]
  split
  · rw [decide_eq_true ‹_›]
    rfl
  · rw [decide_eq_false ‹_›]
    rfl

theorem countP_before? (a b : Interval) (d : Double) :
    (a.before? b).toList.countP (·.contains d) =
      if a.lowCut ≤ 2 * d.key ∧ 2 * d.key < b.lowCut then 1 else 0 := by
  rw [before?]
  split
  · rw [Option.toList_some, List.countP_singleton, contains_eq]
    have hhigh : (2 * b.low.key + if (!b.lowIncluded) = true then 1 else 0) = b.lowCut := by
      rw [lowCut]
      cases b.lowIncluded <;> rfl
    simp only [decide_eq_true_iff]
    rw [highCut, hhigh]
    rfl
  · rw [Option.toList_none, List.countP_nil, if_neg (by omega)]

theorem countP_after? (a b : Interval) (d : Double) :
    (a.after? b).toList.countP (·.contains d) =
      if b.highCut ≤ 2 * d.key ∧ 2 * d.key < a.highCut then 1 else 0 := by
  rw [after?]
  split
  · rw [Option.toList_some, List.countP_singleton, contains_eq]
    have hlow : (2 * b.high.key + if (!b.highIncluded) = true then 0 else 1) = b.highCut := by
      rw [highCut]
      cases b.highIncluded <;> rfl
    simp only [decide_eq_true_iff]
    rw [lowCut, hlow]
    rfl
  · rw [Option.toList_none, List.countP_nil, if_neg (by omega)]

/-- Of the parts that a subtraction leaves, just one holds a double that was in the one interval and
not in the other. -/
theorem countP_subtract (a b : Interval) (d : Double) :
    (a.subtract b).countP (·.contains d) = (a.contains d && !b.contains d).toNat := by
  rw [subtract]
  split
  · rename_i hempty
    rw [isEmpty_iff] at hempty
    have hno : a.contains d = false := by
      rw [contains_eq, decide_eq_false_iff_not]
      omega
    rw [hno]
    rfl
  split
  · rename_i hmeet
    rw [intersects, isSome_intersect?_iff] at hmeet
    -- an empty part would hold nothing
    have hfilter : ∀ p : Interval, (p.contains d && !p.isEmpty) = p.contains d := by
      intro p
      cases he : p.isEmpty with
      | false => rw [Bool.not_false, Bool.and_true]
      | true =>
        rw [isEmpty_iff] at he
        rw [Bool.not_true, Bool.and_false, contains_eq, eq_comm, decide_eq_false_iff_not]
        omega
    rw [List.countP_filter]
    simp only [hfilter]
    rw [List.countP_append, countP_before?, countP_after?, toNat_contains_and_not]
    split <;> split <;> split <;> omega
  · rename_i hmeet
    rw [intersects, isSome_intersect?_iff] at hmeet
    rw [List.countP_singleton, toNat_contains_and_not, contains_eq]
    simp only [decide_eq_true_iff]
    split <;> split <;> omega

end Interval

end RuleCoverage
