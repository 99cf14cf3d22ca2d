import RuleCoverage.Proofs.Interval.CanonicalForm
import RuleCoverage.Proofs.NormalForm.RoundTrip.Domain

/-!
# Equal value sets are written as equal predicates

The same values may be spelled in several ways: a number by doubles of either sign of zero, a
category by an integer or by a double.  How a value set is written depends on how many values it has
or leaves out and on which bounds belong to it, and on their spelling only inside literals, where
equality does not see it.  So equal value sets are written as equal predicates
(`ValueSet.toPredicate_beq`).
-/

set_option autoImplicit false

namespace RuleCoverage

variable {a : String}

/-! ## Literals and joined predicates -/

theorem Scalar.double_beq {x y : Double} (h : x.key = y.key) :
    (Scalar.double x == Scalar.double y) = true := by
  rw [beq_iff_key, key, key, Extended.toEReal_inj.1 (Double.toEReal_inj.2 h)]

namespace Predicate

variable {p q p' q' : Predicate} {ps qs : List Predicate} {v w : Scalar} {x y l h l' h' : Double}

theorem compare_beq (op : Comparison) (hvw : (v == w) = true) :
    (compare (.text a) op (.scalar v) == compare (.text a) op (.scalar w)) = true := by
  have hattr : (Literal.text a == Literal.text a) = true := Literal.beq_self _
  show (_ && op == op && Literal.scalar v == Literal.scalar w) = true
  rw [hattr, beq_self_eq_true, Literal.scalar_beq_scalar, hvw]
  rfl

theorem isIn_beq {vs ws : Distinct Scalar} (h : (vs == ws) = true) :
    (isIn (.text a) vs == isIn (.text a) ws) = true :=
  Bool.and_eq_true_iff.2 ⟨Literal.beq_self _, h⟩

theorem between_beq (hl : l.key = l'.key) (hh : h.key = h'.key) (li hi : Bool) :
    (between (.text a) (.double l) (.double h) li hi ==
      between (.text a) (.double l') (.double h') li hi) = true := by
  have hattr : (Literal.text a == Literal.text a) = true := Literal.beq_self _
  have hlow : (Literal.double l == Literal.double l') = true :=
    (Literal.scalar_beq_scalar _ _).trans (Scalar.double_beq hl)
  have hhigh : (Literal.double h == Literal.double h') = true :=
    (Literal.scalar_beq_scalar _ _).trans (Scalar.double_beq hh)
  show (_ && Literal.double l == Literal.double l' && Literal.double h == Literal.double h' &&
    li == li && hi == hi) = true
  rw [hattr, hlow, hhigh, beq_self_eq_true, beq_self_eq_true]
  rfl

/-- Joining equal predicates one after another gives equal ones. -/
theorem foldl_beq {join : Predicate → Predicate → Predicate}
    (hjoin : ∀ {p q p' q'}, (p == p') = true → (q == q') = true → (join p q == join p' q') = true)
    (hp : (p == q) = true) (h : List.Forall₂ (fun p q ↦ (p == q) = true) ps qs) :
    (ps.foldl join p == qs.foldl join q) = true := by
  induction h generalizing p q with
  | nil => exact hp
  | cons hpq _ ih => exact ih (hjoin hp hpq)

theorem disjunction_beq (h : List.Forall₂ (fun p q ↦ (p == q) = true) ps qs) :
    (disjunction ps == disjunction qs) = true := by
  cases h with
  | nil => rfl
  | cons hp hps => exact foldl_beq (fun h h' ↦ Bool.and_eq_true_iff.2 ⟨h, h'⟩) hp hps

theorem conjunction_beq (h : List.Forall₂ (fun p q ↦ (p == q) = true) ps qs) :
    (conjunction ps == conjunction qs) = true := by
  cases h with
  | nil => rfl
  | cons hp hps => exact foldl_beq (fun h h' ↦ Bool.and_eq_true_iff.2 ⟨h, h'⟩) hp hps

/-- The test for null equals itself. -/
theorem forall₂_nullPart (a : String) (null : Bool) :
    List.Forall₂ (fun p q ↦ (p == q) = true) (nullPart a null) (nullPart a null) := by
  cases null with
  | false => exact .nil
  | true => exact .cons (Literal.beq_self (.text a)) .nil

end Predicate

/-! ## Memberships -/

namespace Distinct

variable {s t : Distinct Scalar}

theorem isEmpty_congr (h : (s == t) = true) : s.isEmpty = t.isEmpty := by
  have hsize := size_congr h
  rw [size, size] at hsize
  rw [Bool.eq_iff_iff, isEmpty, isEmpty, List.isEmpty_iff_length_eq_zero,
    List.isEmpty_iff_length_eq_zero, hsize]

theorem resorted_beq (h : (s == t) = true) : (s.resorted == t.resorted) = true := by
  rw [beq_iff_hasKey]
  intro x
  rw [hasKey_resorted, hasKey_resorted, hasKey_congr h]

/-- Equal sets are both written by a single value, or neither is. -/
theorem sorted_cases (h : (s == t) = true) :
    (∃ v w, s.sorted = [v] ∧ t.sorted = [w] ∧ (v == w) = true) ∨
      (∀ v, s.sorted ≠ [v]) ∧ ∀ w, t.sorted ≠ [w] := by
  have hlength : s.sorted.length = t.sorted.length := by
    rw [s.sorted_perm.length_eq, t.sorted_perm.length_eq]
    exact size_congr h
  by_cases hs : ∃ v, s.sorted = [v]
  · obtain ⟨v, hv⟩ := hs
    rw [hv] at hlength
    obtain ⟨w, hw⟩ := List.length_eq_one_iff.1 hlength.symm
    have hkeys := (beq_iff_hasKey _ _).1 (resorted_beq h) v
    rw [resorted, resorted, hv, hw, ofList_singleton, ofList_singleton, hasKey_singleton,
      hasKey_singleton, iff_true_left rfl, Option.some.injEq] at hkeys
    exact .inl ⟨v, w, hv, hw, (Scalar.beq_iff_key v w).2 hkeys⟩
  · refine .inr ⟨not_exists.1 hs, fun w hw ↦ hs ?_⟩
    rw [hw] at hlength
    exact List.length_eq_one_iff.1 hlength

theorem ofDoubles_beq {xs ys : List Double}
    (h : List.Forall₂ (fun x y ↦ x.key = y.key) xs ys) : (ofDoubles xs == ofDoubles ys) = true := by
  rw [beq_iff_hasKey]
  intro z
  rw [ofDoubles, ofDoubles, hasKey_ofList, hasKey_ofList]
  induction h with
  | nil => rfl
  | cons hxy _ ih =>
    have hkey := (Scalar.beq_iff_key _ _).1 (Scalar.double_beq hxy)
    simp only [List.map_cons, List.mem_cons, exists_eq_or_imp, hkey, ih]

end Distinct

namespace Predicate

variable {s t : Distinct Scalar}

theorem oneOf_of_ne (h : ∀ v, s.sorted ≠ [v]) : oneOf a s = .isIn (.text a) s.resorted := by
  rw [oneOf]
  split
  · exact absurd ‹_› (h _)
  · rfl

theorem noneOf_of_ne (h : ∀ v, s.sorted ≠ [v]) :
    noneOf a s = .not (.isIn (.text a) s.resorted) := by
  rw [noneOf]
  split
  · exact absurd ‹_› (h _)
  · rfl

theorem oneOf_beq (h : (s == t) = true) : (oneOf a s == oneOf a t) = true := by
  rcases Distinct.sorted_cases h with ⟨v, w, hv, hw, hvw⟩ | ⟨hs, ht⟩
  · rw [oneOf, oneOf, hv, hw]
    exact compare_beq .eq hvw
  · rw [oneOf_of_ne hs, oneOf_of_ne ht]
    exact isIn_beq (Distinct.resorted_beq h)

theorem noneOf_beq (h : (s == t) = true) : (noneOf a s == noneOf a t) = true := by
  rcases Distinct.sorted_cases h with ⟨v, w, hv, hw, hvw⟩ | ⟨hs, ht⟩
  · rw [noneOf, noneOf, hv, hw]
    exact compare_beq .ne hvw
  · rw [noneOf_of_ne hs, noneOf_of_ne ht]
    exact isIn_beq (Distinct.resorted_beq h)

end Predicate

/-! ## Sets of numbers -/

theorem Interval.toPredicate_beq {iv jv : Interval} (h : (iv == jv) = true) :
    (iv.toPredicate a == jv.toPredicate a) = true := by
  obtain ⟨⟨hlow, hhigh⟩, hli, hhi⟩ := beq_iff_bounds.1 h
  have hlow' : ∀ x : Double, (iv.low == x) = (jv.low == x) := fun x ↦ by
    rw [Bool.eq_iff_iff, Double.beq_iff, Double.beq_iff, hlow]
  have hhigh' : ∀ x : Double, (iv.high == x) = (jv.high == x) := fun x ↦ by
    rw [Bool.eq_iff_iff, Double.beq_iff, Double.beq_iff, hhigh]
  have hpoint : iv.isPoint = jv.isPoint := by
    rw [Bool.eq_iff_iff]
    exact ⟨fun hp ↦ (isPoint_of_beq (BEq.symm h) hp).1, fun hp ↦ (isPoint_of_beq h hp).1⟩
  have hbound : ∀ op {x y : Double}, x.key = y.key → (Predicate.compare (.text a) op (.double x) ==
      Predicate.compare (.text a) op (.double y)) = true :=
    fun op _ _ hkey ↦ Predicate.compare_beq op (Scalar.double_beq hkey)
  simp only [toPredicate, hlow', hhigh', hli, hhi, hpoint]
  -- the same case applies to both intervals
  split
  · exact hbound _ hlow
  split
  · exact Literal.beq_self (.text a)
  split
  · exact hbound _ hhigh
  split
  · exact hbound _ hlow
  · exact Predicate.between_beq hlow hhigh _ _

namespace NumericValues

variable {ms ns : NumericValues}

theorem beq_iff_parts : (ms == ns) = true ↔
    (ms.intervals == ns.intervals) = true ∧ ms.null = ns.null := by
  show (ms.intervals == ns.intervals && ms.null == ns.null) = true ↔ _
  rw [Bool.and_eq_true, beq_iff_eq (a := ms.null)]

theorem complement_beq (h : (ms == ns) = true) : (ms.complement == ns.complement) = true := by
  rw [beq_iff] at h ⊢
  intro v
  rw [mem_complement, mem_complement, h]

/-- The parts of equal sets are written as equal predicates: both sets are several single numbers,
or neither is. -/
theorem forall₂_parts (h : (ms.intervals == ns.intervals) = true) :
    List.Forall₂ (fun p q ↦ (p == q) = true) (ms.parts a) (ns.parts a) := by
  have hintervals : List.Forall₂ (fun p q ↦ (p == q) = true)
      (ms.intervals.intervals.map (Interval.toPredicate a))
      (ns.intervals.intervals.map (Interval.toPredicate a)) := by
    rw [List.forall₂_map_left_iff, List.forall₂_map_right_iff]
    exact (IntervalSet.forall₂_of_beq h).imp fun _ _ ↦ Interval.toPredicate_beq
  rw [parts, parts]
  cases hns : ns.intervals.points? with
  | some ys =>
    obtain ⟨xs, hxs, hkeys⟩ := IntervalSet.points?_congr h hns
    rw [hxs]
    cases hkeys with
    | nil => exact hintervals
    | cons hxy hrest =>
      cases hrest with
      | nil => exact hintervals
      | cons hxy' hrest' =>
        exact .cons (Predicate.isIn_beq (Distinct.ofDoubles_beq (.cons hxy (.cons hxy' hrest'))))
          .nil
  | none =>
    cases hms : ms.intervals.points? with
    | none => exact hintervals
    | some xs =>
      have hsymm : (ns.intervals == ms.intervals) = true := by
        rw [IntervalSet.beq_iff_mem] at h ⊢
        exact fun x ↦ (h x).symm
      obtain ⟨ys, hys, -⟩ := IntervalSet.points?_congr hsymm hms
      cases hns.symm.trans hys

theorem toPredicate_beq (h : (ms == ns) = true) :
    (ms.toPredicate a == ns.toPredicate a) = true := by
  obtain ⟨hintervals, hnull⟩ := beq_iff_parts.1 h
  by_cases hholes : ns.HasHoles
  · -- a few numbers are left out, and both sets leave out the same ones
    obtain ⟨houtside, hole, holes, hpoints⟩ := hholes
    obtain ⟨hsets, hnulls⟩ := beq_iff_parts.1 (complement_beq h)
    obtain ⟨xs, hxs, hkeys⟩ := IntervalSet.points?_congr hsets hpoints
    rw [toPredicate_of_holes houtside hpoints]
    cases hkeys with
    | cons hx hrest =>
      rw [toPredicate_of_holes (hnulls.trans houtside) hxs]
      exact Predicate.noneOf_beq (Distinct.ofDoubles_beq (.cons hx hrest))
  · have hholes' : ¬ ms.HasHoles := mt (hasHoles_congr h) hholes
    rw [toPredicate_of_not_hasHoles hholes, toPredicate_of_not_hasHoles hholes', hnull]
    exact Predicate.disjunction_beq
      (List.rel_append (Predicate.forall₂_nullPart a ns.null) (forall₂_parts hintervals))

end NumericValues

/-! ## Sets of discrete values -/

namespace DiscreteValues

variable {d e : DiscreteValues}

theorem beq_iff_parts : (d == e) = true ↔
    (d.values == e.values) = true ∧ d.cofinite = e.cofinite ∧ d.null = e.null := by
  show (d.values == e.values && d.cofinite == e.cofinite && d.null == e.null) = true ↔ _
  rw [Bool.and_eq_true, Bool.and_eq_true, beq_iff_eq (a := d.cofinite), beq_iff_eq (a := d.null),
    and_assoc]

/-- What equal sets leave out of all the values is equal. -/
theorem outside_beq (h : (d == e) = true) (full : DiscreteValues) :
    (d.complement.inter full == e.complement.inter full) = true := by
  have hmem := mem_congr h
  rw [beq_iff]
  simp only [mem_inter, mem_complement, hmem, implies_true, and_self]

theorem toPredicate_beq (h : (d == e) = true) (full : DiscreteValues) :
    (d.toPredicate a full == e.toPredicate a full) = true := by
  obtain ⟨hvalues, hco, hnull⟩ := beq_iff_parts.1 h
  obtain ⟨hout, houtco, houtnull⟩ := beq_iff_parts.1 (outside_beq h full)
  rw [toPredicate, toPredicate]
  simp only [hco, hnull, houtco, houtnull, Distinct.isEmpty_congr hvalues,
    Distinct.isEmpty_congr hout, Distinct.size_congr hvalues, Distinct.size_congr hout]
  split
  · refine Predicate.conjunction_beq (List.rel_append ?_ ?_)
    · split
      · exact .nil
      · exact .cons (Literal.beq_self (.text a)) .nil
    · split
      · exact .nil
      · exact .cons (Predicate.noneOf_beq hvalues) .nil
  split
  · exact Predicate.noneOf_beq hout
  · refine Predicate.disjunction_beq (List.rel_append (Predicate.forall₂_nullPart a e.null) ?_)
    split
    · exact .nil
    · exact .cons (Predicate.oneOf_beq hvalues) .nil

end DiscreteValues

/-! ## Value sets -/

/-- **Equal value sets are written as equal predicates.** -/
theorem ValueSet.toPredicate_beq {us vs : ValueSet} (h : (us == vs) = true)
    (ctx : Interpretation) (a : String) :
    (us.toPredicate ctx a == vs.toPredicate ctx a) = true := by
  cases us with
  | numeric ms =>
    cases vs with
    | discrete e => cases h
    | numeric ns => exact NumericValues.toPredicate_beq h
  | discrete d =>
    cases vs with
    | numeric ns => cases h
    | discrete e =>
      rw [toPredicate, toPredicate]
      split <;> exact DiscreteValues.toPredicate_beq h _

end RuleCoverage
