import Mathlib.Data.List.Pairwise
import RuleCoverage.NormalForm.Rendering
import RuleCoverage.Proofs.Values.Extensionality

/-!
# The bounds that intervals are written with

Two doubles may be one number and still be written differently: the zeros.  So it can be seen which
bounds an operation on intervals keeps.  Bringing a canonical list into canonical form changes
nothing (`IntervalSet.normalize_eq_self`), and no operation makes up bounds: each bound of a
complement is a bound of the set or an end of the line (`IntervalSet.bounded_complement`).

An interval is written by those of its bounds that leave something out.  What is read from this,
`Interval.reread`, has the same cuts and is written in the same way.
-/

set_option autoImplicit false

namespace RuleCoverage

/-- Doubles other than zero that are one number are the same. -/
theorem Double.eq_of_key_eq {x y : Double} (h : x.key = y.key) (hne : x.key ≠ 0) : x = y := by
  obtain ⟨sx, rx, hx⟩ := x
  obtain ⟨sy, ry, hy⟩ := y
  simp only [Double.key] at h hne
  have hsign : sx = sy := by
    cases sx <;> cases sy <;> simp_all
  subst hsign
  have hrank : rx = ry := by
    cases sx <;> simp_all
  subst hrank
  rfl

theorem Double.eq_negInf {x : Double} (h : x.key = Double.negInf.key) : x = .negInf :=
  eq_of_key_eq h (h ▸ by decide)

theorem Double.eq_posInf {x : Double} (h : x.key = Double.posInf.key) : x = .posInf :=
  eq_of_key_eq h (h ▸ by decide)

/-! ## Reading a written interval -/

namespace Interval

variable {iv jv : Interval}

/-- The interval as the comparison reads that it is written by: a single number has one bound. -/
def reread (iv : Interval) : Interval := if iv.isPoint then .point iv.low else iv

/-- What is read has the same cuts. -/
theorem reread_beq (iv : Interval) : (iv.reread == iv) = true := by
  rw [reread]
  split
  · rename_i h
    simp only [isPoint, Bool.and_eq_true, Double.beq_iff] at h
    rw [beq_iff, lowCut_point, highCut_point, lowCut, highCut, if_pos h.1.2, if_pos h.2, ← h.1.1,
      Int.add_zero]
    exact ⟨rfl, rfl⟩
  · exact BEq.rfl

theorem lowCut_realLine : realLine.lowCut = 2 * Double.negInf.key := Int.add_zero _

theorem highCut_realLine : realLine.highCut = 2 * Double.posInf.key + 1 := rfl

/-- An interval that equals a point is that point. -/
theorem isPoint_of_beq (h : (iv == jv) = true) (hjv : jv.isPoint = true) :
    iv.isPoint = true ∧ iv.low.key = jv.low.key := by
  have hle := iv.low_le_high
  rw [Double.le_def] at hle
  simp only [isPoint, Bool.and_eq_true, Double.beq_iff] at hjv ⊢
  rw [beq_iff, lowCut, lowCut, highCut, highCut, if_pos hjv.1.2, if_pos hjv.2, ← hjv.1.1] at h
  cases hl : iv.lowIncluded <;> cases hh : iv.highIncluded <;> simp [hl, hh] at h ⊢ <;> omega

theorem isPoint_point (x : Double) : (point x).isPoint = true := by
  simp [isPoint, point, BEq.beq]

/-- What is read is written in the same way. -/
theorem toPredicate_reread (a : String) (iv : Interval) :
    iv.reread.toPredicate a = iv.toPredicate a := by
  rw [reread]
  split
  · rename_i h
    rw [toPredicate, toPredicate, if_pos h, if_pos (isPoint_point iv.low)]
    rfl
  · rfl

end Interval

/-! ## Where bounds come from -/

namespace Interval

variable {P : Double → Prop} {a b : Interval}

/-- Both bounds have a property. -/
def Bounded (P : Double → Prop) (iv : Interval) : Prop := P iv.low ∧ P iv.high

theorem bounded_extend (ha : a.Bounded P) (hb : b.Bounded P) : (a.extend b).Bounded P := by
  rw [extend]
  split
  · exact ⟨ha.1, hb.2⟩
  · exact ha

/-- What is left of an interval is bounded by what bounds the two. -/
theorem bounded_subtract (ha : a.Bounded P) (hb : b.Bounded P) :
    ∀ piece ∈ a.subtract b, piece.Bounded P := by
  intro piece hpiece
  rw [subtract] at hpiece
  split at hpiece
  · cases hpiece
  split at hpiece
  · rw [List.mem_filter, List.mem_append, Option.mem_toList, Option.mem_toList, before?,
      after?] at hpiece
    rcases hpiece.1 with h | h
    · split at h
      · cases h
        exact ⟨ha.1, hb.1⟩
      · cases h
    · split at h
      · cases h
        exact ⟨hb.2, ha.2⟩
      · cases h
  · rw [List.mem_singleton.1 hpiece]
    exact ha

end Interval

namespace IntervalSet

variable {P : Double → Prop} {ivs : List Interval} {s : IntervalSet}

theorem bounded_joinSorted {last : Interval} (hlast : last.Bounded P)
    (h : ∀ iv ∈ ivs, iv.Bounded P) : ∀ iv ∈ joinSorted last ivs, iv.Bounded P := by
  induction ivs generalizing last with
  | nil => simpa [joinSorted] using hlast
  | cons iv rest ih =>
    rw [List.forall_mem_cons] at h
    rw [joinSorted]
    split
    · exact ih (Interval.bounded_extend hlast h.1) h.2
    · exact List.forall_mem_cons.2 ⟨hlast, ih h.1 h.2⟩

theorem bounded_normalize (h : ∀ iv ∈ ivs, iv.Bounded P) :
    ∀ iv ∈ normalize ivs, iv.Bounded P := by
  have hsorted : ∀ iv ∈ (ivs.filter fun iv ↦ !iv.isEmpty).mergeSort Interval.precedes,
      iv.Bounded P := fun iv hiv ↦ h iv (List.mem_filter.1 (List.mem_mergeSort.1 hiv)).1
  rw [normalize]
  split
  · simp
  · rename_i iv rest heq
    rw [heq, List.forall_mem_cons] at hsorted
    exact bounded_joinSorted hsorted.1 hsorted.2

/-- **A complement is bounded by what bounds the set and by the ends of the line.** -/
theorem bounded_complement (hneg : P .negInf) (hpos : P .posInf)
    (h : ∀ iv ∈ s.intervals, iv.Bounded P) : ∀ iv ∈ s.complement.intervals, iv.Bounded P := by
  have hfold : ∀ (ivs rest : List Interval), (∀ iv ∈ ivs, iv.Bounded P) →
      (∀ piece ∈ rest, piece.Bounded P) →
      ∀ piece ∈ ivs.foldl (fun rest iv ↦ rest.flatMap (·.subtract iv)) rest, piece.Bounded P := by
    intro ivs
    induction ivs with
    | nil => exact fun rest _ hrest ↦ hrest
    | cons iv ivs ih =>
      intro rest hivs hrest
      rw [List.forall_mem_cons] at hivs
      rw [List.foldl_cons]
      refine ih _ hivs.2 fun piece hpiece ↦ ?_
      obtain ⟨a, ha, hpiece⟩ := List.mem_flatMap.1 hpiece
      exact Interval.bounded_subtract (hrest a ha) hivs.1 piece hpiece
  refine bounded_normalize (hfold s.intervals [.realLine] h ?_)
  simpa using show Interval.realLine.Bounded P from ⟨hneg, hpos⟩

end IntervalSet

/-! ## Canonical lists -/

namespace IntervalSet

variable {ivs as bs : List Interval} {s t : IntervalSet}

theorem eq_of_intervals (h : s.intervals = t.intervals) : s = t := by
  obtain ⟨as, ha⟩ := s
  obtain ⟨bs, hb⟩ := t
  obtain rfl : as = bs := h
  rfl

theorem Canonical.sublist (h : Canonical bs) (hsub : as.Sublist bs) : Canonical as :=
  ⟨fun iv hiv ↦ h.nonempty iv (hsub.subset hiv), h.separated.sublist hsub⟩

theorem canonical_singleton {iv : Interval} (h : iv.lowCut < iv.highCut) : Canonical [iv] :=
  ⟨by simpa using h, List.pairwise_singleton _ _⟩

theorem joinSorted_eq_self {last : Interval} (h : Canonical (last :: ivs)) :
    joinSorted last ivs = last :: ivs := by
  induction ivs generalizing last with
  | nil => rfl
  | cons iv rest ih =>
    have hgap := List.rel_of_pairwise_cons h.separated (List.mem_cons_self (a := iv))
    rw [joinSorted, if_neg (Int.not_le.2 hgap), ih h.tail]

/-- **A canonical list is its own canonical form.** -/
theorem normalize_eq_self (h : Canonical ivs) : normalize ivs = ivs := by
  have hfilter : ivs.filter (fun iv ↦ !iv.isEmpty) = ivs := by
    rw [List.filter_eq_self]
    intro iv hiv
    simpa [Interval.isEmpty] using h.nonempty iv hiv
  have hsort : ivs.mergeSort Interval.precedes = ivs := by
    refine List.mergeSort_of_pairwise (h.separated.imp_of_mem fun {a b} ha _ hab ↦ ?_)
    have hne := h.nonempty a ha
    rw [Interval.precedes_iff]
    omega
  rw [normalize, hfilter, hsort]
  cases ivs with
  | nil => rfl
  | cons iv rest => exact joinSorted_eq_self h

theorem intervals_ofList (h : Canonical ivs) : (ofList ivs).intervals = ivs := normalize_eq_self h

theorem intervals_full : full.intervals = [.realLine] :=
  intervals_ofList (canonical_singleton (by decide))

theorem intersect?_realLine {iv : Interval} (h : iv.lowCut < iv.highCut) :
    iv.intersect? .realLine = some iv := by
  have hlow : Interval.realLine.lowCut ≤ iv.lowCut := by
    have hbounds := iv.low.key_bounds.1
    rw [Interval.lowCut_realLine, Interval.lowCut]
    split <;> omega
  have hhigh : iv.highCut ≤ Interval.realLine.highCut := by
    have hbounds := iv.high.key_bounds.2
    rw [Interval.highCut_realLine, Interval.highCut]
    split <;> omega
  obtain ⟨lo, hi, hlo, hhi, heq⟩ := Interval.intersect?_eq iv .realLine
  rw [if_pos hlow] at hlo
  rw [if_pos hhigh] at hhi
  subst hlo hhi
  rw [heq, dif_pos h]

/-- The line takes nothing away. -/
theorem inter_full (s : IntervalSet) : s.inter full = s := by
  refine eq_of_intervals ?_
  have hflat : (s.intervals.flatMap fun a ↦ full.intervals.filterMap a.intersect?) =
      s.intervals := by
    rw [intervals_full]
    have hne := s.canonical.nonempty
    generalize s.intervals = ivs at hne
    induction ivs with
    | nil => rfl
    | cons iv rest ih =>
      rw [List.forall_mem_cons] at hne
      rw [List.flatMap_cons, ih hne.2, List.filterMap_cons, intersect?_realLine hne.1]
      rfl
  rw [inter, hflat]
  exact intervals_ofList s.canonical

theorem intervals_union (h : Canonical (s.intervals ++ t.intervals)) :
    (s.union t).intervals = s.intervals ++ t.intervals := intervals_ofList h

theorem empty_union (s : IntervalSet) : (∅ : IntervalSet).union s = s :=
  eq_of_intervals (intervals_union (s := ∅) s.canonical)

/-! ## Single points -/

/-- Numbers in ascending order. -/
abbrev AscendingKeys (xs : List Double) : Prop := xs.Pairwise fun x y ↦ x.key < y.key

variable {xs ys : List Double}

/-- Of ascending numbers no two are the same. -/
theorem eq_of_ascendingKeys (h : AscendingKeys xs) : ∀ x ∈ xs, ∀ y ∈ xs, x.key = y.key → x = y := by
  intro x hx y hy hkey
  by_contra hne
  have hlt : xs.Pairwise fun x y ↦ x.key ≠ y.key := h.imp fun hlt ↦ Int.ne_of_lt hlt
  have hsymm : Std.Symm fun x y : Double ↦ x.key ≠ y.key := ⟨fun _ _ h ↦ h.symm⟩
  exact hlt.forall hx hy hne hkey

/-- Ascending numbers as points of the line. -/
theorem canonical_points (h : AscendingKeys xs) : Canonical (xs.map .point) := by
  constructor
  · intro iv hiv
    obtain ⟨x, -, rfl⟩ := List.mem_map.1 hiv
    rw [Interval.lowCut_point, Interval.highCut_point]
    omega
  · rw [List.pairwise_map]
    refine h.imp fun {x y} hxy ↦ ?_
    rw [Interval.lowCut_point, Interval.highCut_point]
    omega

/-- Numbers may be given in any order. -/
theorem intervals_points (h : AscendingKeys xs) (hperm : ys.Perm xs) :
    (points ys).intervals = xs.map .point := by
  have hcanonical := canonical_points h
  have hne : ∀ iv ∈ ys.map Interval.point, !iv.isEmpty := by
    intro iv hiv
    simpa [Interval.isEmpty] using hcanonical.nonempty iv ((hperm.map _).mem_iff.1 hiv)
  have hsort : (ys.map Interval.point).mergeSort Interval.precedes = xs.map .point := by
    have hsorted := List.pairwise_mergeSort Interval.precedes_trans Interval.precedes_total
      (ys.map Interval.point)
    refine List.Perm.eq_of_pairwise ?_ hsorted
      (hcanonical.separated.imp_of_mem fun {a b} ha _ hab ↦ ?_)
      ((List.mergeSort_perm ..).trans (hperm.map _))
    · intro a b ha hb hab hba
      rw [List.mem_mergeSort] at ha
      obtain ⟨x, hx, rfl⟩ := List.mem_map.1 ha
      obtain ⟨y, hy, rfl⟩ := List.mem_map.1 hb
      rw [Interval.precedes_iff, Interval.lowCut_point, Interval.lowCut_point] at hab hba
      rw [eq_of_ascendingKeys h x (hperm.mem_iff.1 hx) y hy (by omega)]
    · have hne := hcanonical.nonempty a ha
      rw [Interval.precedes_iff]
      omega
  rw [points, ofList]
  show normalize _ = _
  rw [normalize, List.filter_eq_self.2 hne, hsort]
  cases xs with
  | nil => rfl
  | cons x xs => exact joinSorted_eq_self hcanonical

theorem points?_eq_some : s.points? = some xs ↔
    (∀ iv ∈ s.intervals, iv.isPoint = true) ∧ xs = s.intervals.map Interval.low := by
  rw [points?]
  split
  · rename_i hall
    rw [List.all_eq_true] at hall
    rw [and_iff_right hall, Option.some.injEq, eq_comm]
  · rename_i hall
    rw [List.all_eq_true] at hall
    exact iff_of_false (by simp) fun h ↦ hall h.1

/-- The points of a set ascend. -/
theorem ascendingKeys_of_points? (h : s.points? = some xs) : AscendingKeys xs := by
  obtain ⟨hpoint, rfl⟩ := points?_eq_some.1 h
  rw [AscendingKeys, List.pairwise_map]
  refine s.canonical.separated.imp_of_mem fun {a b} ha hb hab ↦ ?_
  have hcut := hpoint a ha
  simp only [Interval.isPoint, Bool.and_eq_true, Double.beq_iff] at hcut
  rw [Interval.highCut, Interval.lowCut, ← hcut.1.1, hcut.2, if_pos rfl] at hab
  split at hab <;> omega

theorem map_point_of_points? (h : s.points? = some xs) :
    xs.map .point = s.intervals.map Interval.reread := by
  obtain ⟨hpoint, rfl⟩ := points?_eq_some.1 h
  rw [List.map_map]
  refine List.map_congr_left fun iv hiv ↦ ?_
  rw [Function.comp, Interval.reread, if_pos (hpoint iv hiv)]

/-- A set of certain points is made of these points. -/
theorem points?_of_intervals (h : s.intervals = xs.map .point) : s.points? = some xs := by
  refine points?_eq_some.2 ⟨?_, ?_⟩
  · rw [h]
    intro iv hiv
    obtain ⟨x, -, rfl⟩ := List.mem_map.1 hiv
    exact Interval.isPoint_point x
  · rw [h, List.map_map]
    exact (List.map_id' xs).symm

theorem forall₂_of_beq (h : (s == t) = true) :
    List.Forall₂ (fun a b ↦ (a == b) = true) s.intervals t.intervals := by
  change (s.intervals == t.intervals) = true at h
  generalize s.intervals = as at h ⊢
  generalize t.intervals = bs at h ⊢
  induction as generalizing bs with
  | nil =>
    cases bs with
    | nil => exact .nil
    | cons => cases h
  | cons a as ih =>
    cases bs with
    | nil => cases h
    | cons b bs =>
      rw [List.cons_beq_cons, Bool.and_eq_true] at h
      exact .cons h.1 (ih bs h.2)

theorem points?_congr (h : (s == t) = true) (ht : t.points? = some ys) :
    ∃ xs, s.points? = some xs ∧ List.Forall₂ (fun x y ↦ x.key = y.key) xs ys := by
  obtain ⟨hpoint, rfl⟩ := points?_eq_some.1 ht
  suffices h' : (∀ iv ∈ s.intervals, iv.isPoint = true) ∧ List.Forall₂ (fun x y ↦ x.key = y.key)
      (s.intervals.map Interval.low) (t.intervals.map Interval.low) from
    ⟨_, points?_eq_some.2 ⟨h'.1, rfl⟩, h'.2⟩
  have hrel := forall₂_of_beq h
  generalize s.intervals = as at hrel ⊢
  generalize t.intervals = bs at hrel hpoint ⊢
  induction hrel with
  | nil => exact ⟨by simp, .nil⟩
  | @cons a b as bs hab _ ih =>
    rw [List.forall_mem_cons] at hpoint
    obtain ⟨ha, hkey⟩ := Interval.isPoint_of_beq hab hpoint.1
    obtain ⟨has, hkeys⟩ := ih hpoint.2
    exact ⟨List.forall_mem_cons.2 ⟨ha, has⟩, .cons hkey hkeys⟩

/-! ## Reading a written set -/

theorem canonical_map_reread (h : Canonical ivs) : Canonical (ivs.map Interval.reread) := by
  have hcuts := fun iv : Interval ↦ (Interval.beq_iff _ _).1 iv.reread_beq
  constructor
  · intro iv hiv
    obtain ⟨jv, hjv, rfl⟩ := List.mem_map.1 hiv
    rw [(hcuts jv).1, (hcuts jv).2]
    exact h.nonempty jv hjv
  · rw [List.pairwise_map]
    refine h.separated.imp fun {iv jv} hlt ↦ ?_
    rwa [(hcuts iv).2, (hcuts jv).1]

/-- The set as the comparisons read that its intervals are written by. -/
def reread (s : IntervalSet) : IntervalSet :=
  ⟨s.intervals.map Interval.reread, canonical_map_reread s.canonical⟩

theorem reread_beq (s : IntervalSet) : (s.reread == s) = true := by
  show (s.intervals.map Interval.reread == s.intervals) = true
  generalize s.intervals = ivs
  induction ivs with
  | nil => rfl
  | cons iv ivs ih => rw [List.map_cons, List.cons_beq_cons, iv.reread_beq, ih, Bool.and_self]

theorem points?_reread (s : IntervalSet) : s.reread.points? = s.points? := by
  have hpoint : ∀ iv : Interval, iv.reread.isPoint = iv.isPoint := by
    intro iv
    rw [Bool.eq_iff_iff]
    exact ⟨fun h ↦ (Interval.isPoint_of_beq (BEq.symm iv.reread_beq) h).1,
      fun h ↦ (Interval.isPoint_of_beq iv.reread_beq h).1⟩
  have hlow : ∀ iv : Interval, iv.reread.low = iv.low := by
    intro iv
    rw [Interval.reread]
    split <;> rfl
  rw [points?, points?, reread]
  simp only [List.all_map, List.map_map, Function.comp_def, hpoint, hlow]

/-! ## Points that are taken away -/

/-- Numbers that are the same, one after another, are written in the same way if the ones are taken
from the others. -/
theorem eq_of_keys (hxs : ∀ x ∈ xs, x = .negInf ∨ x = .posInf ∨ x ∈ ys) (hys : AscendingKeys ys)
    (h : List.Forall₂ (fun x y ↦ x.key = y.key) xs ys) : xs = ys := by
  rw [← List.forall₂_eq_eq_eq]
  rw [List.forall₂_iff_zip] at h ⊢
  refine ⟨h.1, fun {x y} hxy ↦ ?_⟩
  have hkey := h.2 hxy
  obtain ⟨hx, hy⟩ := List.of_mem_zip hxy
  by_cases hzero : x.key = 0
  · rcases hxs x hx with rfl | rfl | hx
    · exact absurd hzero (by decide)
    · exact absurd hzero (by decide)
    · exact eq_of_ascendingKeys hys x hx y hy hkey
  · exact Double.eq_of_key_eq hkey hzero

/-- **Taking points away twice gives them back** as they were written. -/
theorem points?_complement_points (h : AscendingKeys xs) :
    (points xs).complement.complement.points? = some xs := by
  have hpoints := intervals_points h (.refl xs)
  have hbeq : ((points xs).complement.complement == points xs) = true := by
    simp [beq_iff_mem]
  obtain ⟨ys, hys, hkeys⟩ := points?_congr hbeq (points?_of_intervals hpoints)
  have hbounded : ∀ iv ∈ (points xs).complement.complement.intervals,
      iv.Bounded fun x ↦ x = .negInf ∨ x = .posInf ∨ x ∈ xs := by
    refine bounded_complement (.inl rfl) (.inr (.inl rfl)) ?_
    refine bounded_complement (.inl rfl) (.inr (.inl rfl)) ?_
    rw [hpoints]
    intro iv hiv
    obtain ⟨x, hx, rfl⟩ := List.mem_map.1 hiv
    exact ⟨.inr (.inr hx), .inr (.inr hx)⟩
  rw [hys, eq_of_keys ?_ h hkeys]
  intro y hy
  rw [(points?_eq_some.1 hys).2] at hy
  obtain ⟨iv, hiv, rfl⟩ := List.mem_map.1 hy
  exact (hbounded iv hiv).1

end IntervalSet

end RuleCoverage
