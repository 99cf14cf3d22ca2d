import RuleCoverage.Interval.Basic

/-!
# Unions of intervals

An `IntervalSet` is a finite union of intervals in canonical form: no interval is empty, and each
ends before the next one starts with at least one point missing in between
(`IntervalSet.Canonical`).  So two sets with the same points are the same list of intervals.

`IntervalSet.ofList` brings any list of intervals into this form: it sorts them and, going from
left to right, joins each one to the last when no point is missing between them.
-/

set_option autoImplicit false

namespace RuleCoverage

namespace IntervalSet

/-- No interval is empty, and consecutive ones leave a gap. -/
structure Canonical (ivs : List Interval) : Prop where
  nonempty : ∀ iv ∈ ivs, iv.lowCut < iv.highCut
  separated : ivs.Pairwise fun a b ↦ a.highCut < b.lowCut

/-- Joins the intervals of a sorted list to `last` as long as they leave no gap. -/
def joinSorted (last : Interval) : List Interval → List Interval
  | [] => [last]
  | iv :: rest =>
    if iv.lowCut ≤ last.highCut then joinSorted (last.extend iv) rest
    else last :: joinSorted iv rest

/-- The canonical form of a list of intervals. -/
def normalize (ivs : List Interval) : List Interval :=
  match (ivs.filter fun iv ↦ !iv.isEmpty).mergeSort Interval.precedes with
  | [] => []
  | iv :: rest => joinSorted iv rest

/-- The order in which `joinSorted` takes intervals: by their starts. -/
abbrev Ascending (ivs : List Interval) : Prop :=
  ivs.Pairwise fun a b ↦ a.lowCut ≤ b.lowCut

theorem ascending_extend {last iv : Interval} {rest : List Interval}
    (h : Ascending (last :: iv :: rest)) : Ascending (last.extend iv :: rest) := by
  simp only [Ascending, List.pairwise_cons] at h ⊢
  refine ⟨fun x hx ↦ ?_, h.2.2⟩
  rw [Interval.lowCut_extend]
  exact h.1 x (List.mem_cons_of_mem _ hx)

/-- Joining never moves a start to the left. -/
theorem lowCut_le_of_mem_joinSorted {last : Interval} {ivs : List Interval}
    (h : Ascending (last :: ivs)) : ∀ x ∈ joinSorted last ivs, last.lowCut ≤ x.lowCut := by
  induction ivs generalizing last with
  | nil => simp [joinSorted]
  | cons iv rest ih =>
    intro x hx
    unfold joinSorted at hx
    split at hx
    · have := ih (ascending_extend h) x hx
      rwa [Interval.lowCut_extend] at this
    · rcases List.mem_cons.1 hx with rfl | hx
      · exact Int.le_refl _
      · have hle := List.rel_of_pairwise_cons h (List.mem_cons_self (a := iv))
        exact Int.le_trans hle (ih (List.pairwise_cons.1 h).2 x hx)

theorem canonical_joinSorted {last : Interval} {ivs : List Interval}
    (h : Ascending (last :: ivs)) (hne : ∀ iv ∈ last :: ivs, iv.lowCut < iv.highCut) :
    Canonical (joinSorted last ivs) := by
  induction ivs generalizing last with
  | nil => exact ⟨by simpa [joinSorted] using hne, by simp [joinSorted]⟩
  | cons iv rest ih =>
    unfold joinSorted
    have hlast := hne last (by simp)
    split
    · refine ih (ascending_extend h) fun x hx ↦ ?_
      rcases List.mem_cons.1 hx with rfl | hx
      · rw [Interval.lowCut_extend, Interval.highCut_extend]
        omega
      · exact hne x (by simp [hx])
    · rename_i hgap
      have htail := (List.pairwise_cons.1 h).2
      have hrest := ih htail fun x hx ↦ hne x (List.mem_cons_of_mem _ hx)
      refine ⟨fun x hx ↦ ?_, List.pairwise_cons.2 ⟨fun x hx ↦ ?_, hrest.separated⟩⟩
      · rcases List.mem_cons.1 hx with rfl | hx
        · exact hlast
        · exact hrest.nonempty x hx
      · have := lowCut_le_of_mem_joinSorted htail x hx
        omega

theorem canonical_normalize (ivs : List Interval) : Canonical (normalize ivs) := by
  unfold normalize
  split
  · exact ⟨by simp, .nil⟩
  · rename_i iv rest heq
    have hsorted := List.pairwise_mergeSort Interval.precedes_trans Interval.precedes_total
      (ivs.filter fun iv ↦ !iv.isEmpty)
    rw [heq] at hsorted
    refine canonical_joinSorted (hsorted.imp fun h ↦ ?_) fun x hx ↦ ?_
    · rw [Interval.precedes_iff] at h
      omega
    · rw [← heq, List.mem_mergeSort, List.mem_filter] at hx
      simpa [Interval.isEmpty] using hx.2

end IntervalSet

/-- A finite union of intervals, in canonical form. -/
structure IntervalSet where
  intervals : List Interval
  canonical : IntervalSet.Canonical intervals

namespace IntervalSet

instance : BEq IntervalSet := ⟨fun s t ↦ s.intervals == t.intervals⟩

/-- The union of a list of intervals. -/
def ofList (ivs : List Interval) : IntervalSet := ⟨normalize ivs, canonical_normalize ivs⟩

def empty : IntervalSet := ⟨[], by simp, .nil⟩

instance : EmptyCollection IntervalSet := ⟨empty⟩

instance : Inhabited IntervalSet := ⟨empty⟩

def point (x : Double) : IntervalSet := ofList [.point x]

def points (xs : List Double) : IntervalSet := ofList (xs.map Interval.point)

/-- All of the extended line. -/
def full : IntervalSet := ofList [.realLine]

def size (s : IntervalSet) : Nat := s.intervals.length

def isEmpty (s : IntervalSet) : Bool := s.intervals.isEmpty

def isFull (s : IntervalSet) : Bool := s == full

def union (s t : IntervalSet) : IntervalSet := ofList (s.intervals ++ t.intervals)

/-- The overlaps of each interval of `s` with each interval of `t`. -/
def inter (s t : IntervalSet) : IntervalSet :=
  ofList (s.intervals.flatMap fun a ↦ t.intervals.filterMap a.intersect?)

/-- What the intervals leave of the extended line, which counts as closed at both ends. -/
def complement (s : IntervalSet) : IntervalSet :=
  ofList (s.intervals.foldl (fun rest iv ↦ rest.flatMap (·.subtract iv)) [.realLine])

def subset (s t : IntervalSet) : Bool := (s.inter t.complement).isEmpty

/-- The members in increasing order, when the set is finite. -/
def points? (s : IntervalSet) : Option (List Double) :=
  if s.intervals.all Interval.isPoint then some (s.intervals.map Interval.low) else none

def contains (s : IntervalSet) (x : Double) : Bool := s.intervals.any (·.contains x)

/-- Whether the number that a literal counts as is a member; NaN is in no set, and no literal is
read when the set is empty. -/
def containsLiteral (s : IntervalSet) (x : Literal) : Except Error Bool := do
  if s.isEmpty then return false
  match ← x.toDouble with
  | .number d => return s.contains d
  | .notANumber => return false

/-- The intervals in braces. -/
def text (s : IntervalSet) : String :=
  "\x7b" ++ ", ".intercalate (s.intervals.map Interval.text) ++ "\x7d"

end IntervalSet

end RuleCoverage
