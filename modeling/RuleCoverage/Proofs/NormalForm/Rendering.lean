import RuleCoverage.NormalForm.Rendering
import RuleCoverage.Proofs.NormalForm.Expansion

/-!
# Writing terms keeps the meaning

The predicate that a disjunction of terms is written as is true exactly when one of the terms holds,
and it has no atoms that the reading does not know: they are opaque atoms of the terms, or tests of
interpreted attributes.

* `Predicate.Writes r p holds` — `p` says `holds` in atoms that `r` knows.
* `NumericValues.writes_toPredicate`, `DiscreteValues.writes_toPredicate` — the constraints.
* `Term.writes_disjunctionOf` — the whole normal form.
-/

set_option autoImplicit false

namespace RuleCoverage

variable {ctx : Interpretation} {r : Reading ctx}

namespace Predicate

/-- The predicate has no unknown atoms and is true exactly when something holds. -/
def Writes (r : Reading ctx) (p : Predicate) (holds : Prop) : Prop :=
  p.AllAtoms r.Knows ∧ (p.IsTrue r.truth ↔ holds)

variable {p : Predicate} {holds holds' : Prop}

theorem Writes.congr (h : Writes r p holds) (hiff : holds ↔ holds') : Writes r p holds' :=
  ⟨h.1, h.2.trans hiff⟩

theorem Writes.not (h : Writes r p holds) : Writes r (.not p) (¬ holds) := ⟨h.1, not_congr h.2⟩

/-- Some of the predicates is true exactly when something holds. -/
def WritesAny (r : Reading ctx) (ps : List Predicate) (holds : Prop) : Prop :=
  (∀ p ∈ ps, p.AllAtoms r.Knows) ∧ ((∃ p ∈ ps, p.IsTrue r.truth) ↔ holds)

/-- All of the predicates are true exactly when something holds. -/
def WritesAll (r : Reading ctx) (ps : List Predicate) (holds : Prop) : Prop :=
  (∀ p ∈ ps, p.AllAtoms r.Knows) ∧ ((∀ p ∈ ps, p.IsTrue r.truth) ↔ holds)

variable {ps qs : List Predicate}

theorem WritesAny.disjunction (h : WritesAny r ps holds) : Writes r (disjunction ps) holds :=
  ⟨(allAtoms_disjunction ps).2 h.1, (isTrue_disjunction ps).trans h.2⟩

theorem WritesAll.conjunction (h : WritesAll r ps holds) : Writes r (conjunction ps) holds :=
  ⟨(allAtoms_conjunction ps).2 h.1, (isTrue_conjunction ps).trans h.2⟩

theorem WritesAny.append (hp : WritesAny r ps holds) (hq : WritesAny r qs holds') :
    WritesAny r (ps ++ qs) (holds ∨ holds') := by
  refine ⟨List.forall_mem_append.2 ⟨hp.1, hq.1⟩, ?_⟩
  rw [← hp.2, ← hq.2]
  simp only [List.mem_append, or_and_right, exists_or]

theorem WritesAll.append (hp : WritesAll r ps holds) (hq : WritesAll r qs holds') :
    WritesAll r (ps ++ qs) (holds ∧ holds') := by
  refine ⟨List.forall_mem_append.2 ⟨hp.1, hq.1⟩, ?_⟩
  rw [← hp.2, ← hq.2, List.forall_mem_append]

theorem writesAny_map {α : Type} {xs : List α} {f : α → Predicate} {meaning : α → Prop}
    (h : ∀ x ∈ xs, Writes r (f x) (meaning x)) : WritesAny r (xs.map f) (∃ x ∈ xs, meaning x) := by
  refine ⟨List.forall_mem_map.2 fun x hx ↦ (h x hx).1, ?_⟩
  simp only [List.mem_map, exists_exists_and_eq_and]
  exact exists_congr fun x ↦ and_congr_right fun hx ↦ (h x hx).2

theorem writesAll_map {α : Type} {xs : List α} {f : α → Predicate} {meaning : α → Prop}
    (h : ∀ x ∈ xs, Writes r (f x) (meaning x)) : WritesAll r (xs.map f) (∀ x ∈ xs, meaning x) := by
  refine ⟨List.forall_mem_map.2 fun x hx ↦ (h x hx).1, ?_⟩
  rw [List.forall_mem_map]
  exact forall_congr' fun x ↦ imp_congr_right fun hx ↦ (h x hx).2

theorem Writes.any (h : Writes r p holds) : WritesAny r [p] holds :=
  ⟨by simpa using h.1, by simpa using h.2⟩

theorem Writes.all (h : Writes r p holds) : WritesAll r [p] holds :=
  ⟨by simpa using h.1, by simpa using h.2⟩

theorem writesAny_nil (h : ¬ holds) : WritesAny r [] holds := ⟨by simp, by simpa using h⟩

theorem writesAll_nil (h : holds) : WritesAll r [] holds := ⟨by simp, by simpa using h⟩

/-- An atom that has a value set. -/
theorem writes_atom {atom : Predicate} {a : String} {vs : ValueSet} (hatom : atom.IsAtom)
    (hknows : r.Knows atom) (hn : atom.named? = some a) (hvs : ctx.values? atom = .ok (some vs)) :
    Writes r atom (vs.Mem (r.value a)) :=
  ⟨hatom.allAtoms_iff.2 hknows, hatom.isTrue_iff.trans (r.truth_of_values hknows hn hvs)⟩

theorem writes_isNull {a : String} {k : Kind} (hk : ctx.kind? a = some k) :
    Writes r (.isNull (.text a)) (r.value a = none) := by
  have hatom : IsAtom (.isNull (.text a)) := trivial
  refine (writes_atom hatom (r.knows_isNull hk) rfl (Interpretation.values?_isNull hk)).congr ?_
  split
  · rw [ValueSet.Mem, NumericValues.mem_onlyNull, Option.map_eq_none_iff]
  · rw [ValueSet.Mem, DiscreteValues.mem_onlyNull, Option.map_eq_none_iff]

theorem writesAny_nullPart {a : String} {k : Kind} (hk : ctx.kind? a = some k) (null : Bool) :
    WritesAny r (nullPart a null) (null = true ∧ r.value a = none) := by
  rw [nullPart]
  split
  · rename_i hnull
    rw [and_iff_right hnull]
    exact (writes_isNull hk).any
  · rename_i hnull
    exact writesAny_nil fun h ↦ hnull h.1

/-! ## Lists of values -/

/-- How an attribute is tested for certain values: `is` says what it means to be one of them. -/
structure Tests (r : Reading ctx) (a : String) (values : Distinct Scalar) (is : Scalar → Prop) :
    Prop where
  eq : ∀ s ∈ values.toList, Writes r (.compare (.text a) .eq (.scalar s)) (is s)
  ne : ∀ s ∈ values.toList, Writes r (.compare (.text a) .ne (.scalar s)) (¬ is s)
  isIn : ∀ vs : Distinct Scalar, (∀ s ∈ vs.toList, s ∈ values.toList) →
    Writes r (.isIn (.text a) vs) (∃ s ∈ vs.toList, is s)
  congr : ∀ s ∈ values.toList, ∀ t ∈ values.toList, (s == t) = true → is s → is t

namespace Tests

variable {a : String} {values : Distinct Scalar} {is : Scalar → Prop}

theorem mem_sorted {s : Scalar} : s ∈ values.sorted ↔ s ∈ values.toList := by
  rw [Distinct.sorted, List.mem_mergeSort]

/-- Sorting the values and making them a set again changes nothing. -/
theorem writes_isIn_sorted (h : Tests r a values is) :
    Writes r (.isIn (.text a) (.ofList values.sorted)) (∃ s ∈ values.toList, is s) := by
  have hmem : ∀ s ∈ (Distinct.ofList values.sorted).toList, s ∈ values.toList :=
    fun s hs ↦ mem_sorted.1 (Distinct.mem_of_mem_ofList hs)
  refine (h.isIn _ hmem).congr ⟨fun ⟨s, hs, his⟩ ↦ ⟨s, hmem s hs, his⟩, ?_⟩
  rintro ⟨s, hs, his⟩
  obtain ⟨t, ht, rfl | hts⟩ := Distinct.exists_mem_ofList (mem_sorted.2 hs)
  · exact ⟨t, ht, his⟩
  · exact ⟨t, ht, h.congr s hs t (hmem t ht) (BEq.symm hts) his⟩

theorem exists_mem_of_sorted {s : Scalar} (is : Scalar → Prop) (h : values.sorted = [s]) :
    s ∈ values.toList ∧ ((∃ t ∈ values.toList, is t) ↔ is s) := by
  have hmem : ∀ t, t ∈ values.toList ↔ t = s := by
    intro t
    rw [← mem_sorted, h, List.mem_singleton]
  exact ⟨(hmem s).2 rfl, by simp only [hmem, exists_eq_left]⟩

theorem writes_oneOf (h : Tests r a values is) :
    Writes r (oneOf a values) (∃ s ∈ values.toList, is s) := by
  rw [oneOf]
  split
  · rename_i s hs
    obtain ⟨hmem, hiff⟩ := exists_mem_of_sorted is hs
    exact (h.eq s hmem).congr hiff.symm
  · exact h.writes_isIn_sorted

theorem writes_noneOf (h : Tests r a values is) :
    Writes r (noneOf a values) (¬ ∃ s ∈ values.toList, is s) := by
  rw [noneOf]
  split
  · rename_i s hs
    obtain ⟨hmem, hiff⟩ := exists_mem_of_sorted is hs
    exact (h.ne s hmem).congr (not_congr hiff.symm)
  · exact h.writes_isIn_sorted.not

end Tests

/-- The tests of an attribute that is not numeric. -/
theorem tests_discrete {a : String} {k : Kind} {values : Distinct Scalar}
    (hk : ctx.kind? a = some k) (hk' : k ≠ .numeric)
    (hc : ∀ s ∈ values.toList, r.Compares a s) :
    Tests r a values fun s ↦ (r.value a).bind Value.key? = some s.key where
  eq s hs := r.truth_eq hk hk' (hc s hs)
  ne s hs := r.truth_ne hk hk' (hc s hs)
  isIn vs hvs := by
    refine Writes.congr (r.truth_isIn hk hk' fun s hs ↦ hc s (hvs s hs)) ?_
    exact exists_congr fun s ↦ and_congr_right fun _ ↦ eq_comm
  congr s _ t _ hst := by
    rw [Scalar.beq_iff_key] at hst
    rw [hst]
    exact id

/-! ## Numbers -/

section numeric

variable {a : String}

theorem exists_map_double : ∀ {vs : List Scalar}, (∀ s ∈ vs, ∃ x, s = .double x) →
    ∃ xs : List Double, vs = xs.map .double
  | [], _ => ⟨[], rfl⟩
  | s :: vs, h => by
    rw [List.forall_mem_cons] at h
    obtain ⟨x, rfl⟩ := h.1
    obtain ⟨xs, rfl⟩ := exists_map_double h.2
    exact ⟨x :: xs, rfl⟩

theorem numerics?_map_double (xs : List Double) : numerics? (xs.map .double) = .ok (some xs) := by
  induction xs with
  | nil => rfl
  | cons x xs ih =>
    rw [List.map_cons, numerics?]
    simp only [ih]
    rfl

/-- A test for numbers is true of the points in its value set. -/
theorem writes_numeric {atom : Predicate} {vs : NumericValues} (hk : ctx.kind? a = some .numeric)
    (hatom : atom.IsAtom) (hn : atom.named? = some a) (hnull : ∀ b, atom ≠ .isNull b)
    (hknows : r.Knows atom) (hvs : atom.numericValues? = .ok (some vs)) :
    Writes r atom (vs.Mem ((r.value a).map Value.toEReal)) := by
  have hvalues : ctx.values? atom = .ok (some (.numeric vs)) := by
    rw [Interpretation.values?_numeric hn hk hnull, hvs]
    rfl
  exact writes_atom hatom hknows hn hvalues

theorem writes_compare (hk : ctx.kind? a = some .numeric) (op : Comparison) (x : Double) :
    Writes r (.compare (.text a) op (.double x))
      ((op.numericValues x).Mem ((r.value a).map Value.toEReal)) := by
  have hatom : IsAtom (.compare (.text a) op (.double x)) := trivial
  exact writes_numeric hk hatom rfl (by simp) (r.knows_compare hk op x) rfl

theorem writes_between (hk : ctx.kind? a = some .numeric) (iv : Interval) :
    Writes r (.between (.text a) (.double iv.low) (.double iv.high) iv.lowIncluded iv.highIncluded)
      (∃ x, (r.value a).map Value.toEReal = some x ∧ iv.Mem x) := by
  have hvs : (between (.text a) (.double iv.low) (.double iv.high) iv.lowIncluded
      iv.highIncluded).numericValues? = .ok (some (.ofInterval iv)) := by
    show (if ok : iv.low ≤ iv.high then _ else _) = _
    rw [dif_pos iv.low_le_high]
    rfl
  have hatom : IsAtom (.between (.text a) (.double iv.low) (.double iv.high) iv.lowIncluded
      iv.highIncluded) := trivial
  refine (writes_numeric hk hatom rfl (by simp) (r.knows_between hk _ _ _ _) hvs).congr ?_
  rw [NumericValues.mem_ofInterval]

/-- The scalar stands for the point that the value is. -/
def IsPointOf (v : Option EReal) (s : Scalar) : Prop :=
  ∃ e, s.key = .number e ∧ v = some e.toEReal

theorem isPointOf_double {v : Option EReal} {x : Double} :
    IsPointOf v (.double x) ↔ v = some x.toEReal := by
  simp [IsPointOf, Scalar.key, Double.toEReal]

theorem tests_numeric {values : Distinct Scalar} (hk : ctx.kind? a = some .numeric)
    (hd : ∀ s ∈ values.toList, ∃ x, s = .double x) :
    Tests r a values (IsPointOf ((r.value a).map Value.toEReal)) where
  eq s hs := by
    obtain ⟨x, rfl⟩ := hd s hs
    refine (writes_compare hk .eq x).congr ?_
    rw [Comparison.numericValues, NumericValues.mem_points, isPointOf_double]
    simp
  ne s hs := by
    obtain ⟨x, rfl⟩ := hd s hs
    refine (writes_compare hk .ne x).congr ?_
    rw [Comparison.numericValues, NumericValues.mem_complement, NumericValues.mem_points,
      isPointOf_double]
    simp
  isIn vs hvs := by
    have hdouble : ∀ s ∈ vs.toList, ∃ x, s = .double x := fun s hs ↦ hd s (hvs s hs)
    obtain ⟨xs, hxs⟩ := exists_map_double hdouble
    have hvalues : (isIn (.text a) vs).numericValues? = .ok (some (.points xs)) := by
      rw [numericValues?, hxs, numerics?_map_double]
      rfl
    have hatom : IsAtom (.isIn (.text a) vs) := trivial
    refine (writes_numeric hk hatom rfl (by simp) (r.knows_isIn hk vs hdouble) hvalues).congr ?_
    rw [NumericValues.mem_points, hxs]
    simp only [List.mem_map, exists_exists_and_eq_and, isPointOf_double]
  congr s _ t _ hst := by
    rw [Scalar.beq_iff_key] at hst
    rintro ⟨e, hs, hv⟩
    exact ⟨e, hst ▸ hs, hv⟩

theorem double_of_mem_ofDoubles {xs : List Double} {s : Scalar}
    (h : s ∈ (Distinct.ofDoubles xs).toList) : ∃ x ∈ xs, s = .double x := by
  obtain ⟨x, hx, rfl⟩ := List.mem_map.1 (Distinct.mem_of_mem_ofList h)
  exact ⟨x, hx, rfl⟩

theorem exists_isPointOf_ofDoubles {xs : List Double} {v : Option EReal} :
    (∃ s ∈ (Distinct.ofDoubles xs).toList, IsPointOf v s) ↔ ∃ x ∈ xs, v = some x.toEReal := by
  constructor
  · rintro ⟨s, hs, hv⟩
    obtain ⟨x, hx, rfl⟩ := double_of_mem_ofDoubles hs
    exact ⟨x, hx, isPointOf_double.1 hv⟩
  · rintro ⟨x, hx, hv⟩
    have hmem : Scalar.double x ∈ xs.map Scalar.double := List.mem_map_of_mem hx
    obtain ⟨s, hs, rfl | hsx⟩ := Distinct.exists_mem_ofList hmem
    · exact ⟨_, hs, isPointOf_double.2 hv⟩
    · obtain ⟨e, he, hve⟩ := isPointOf_double.2 hv
      exact ⟨s, hs, e, ((Scalar.beq_iff_key _ _).1 hsx).trans he, hve⟩

theorem tests_ofDoubles (hk : ctx.kind? a = some .numeric) (xs : List Double) :
    Tests r a (Distinct.ofDoubles xs) (IsPointOf ((r.value a).map Value.toEReal)) :=
  tests_numeric hk fun s hs ↦ by
    obtain ⟨x, -, rfl⟩ := double_of_mem_ofDoubles hs
    exact ⟨x, rfl⟩

end numeric

end Predicate

/-! ## Intervals -/

namespace Interval

variable {a : String} {iv jv : Interval}

/-- Intervals with the same bounds hold the same points. -/
theorem mem_iff_of_bounds (hlow : iv.low.key = jv.low.key)
    (hlow' : iv.lowIncluded = jv.lowIncluded) (hhigh : iv.high.key = jv.high.key)
    (hhigh' : iv.highIncluded = jv.highIncluded) (x : EReal) : iv.Mem x ↔ jv.Mem x := by
  refine mem_congr ?_
  have hcuts : iv.lowCut = jv.lowCut ∧ iv.highCut = jv.highCut := by
    rw [lowCut, lowCut, highCut, highCut, hlow, hlow', hhigh, hhigh']
    exact ⟨rfl, rfl⟩
  simp only [BEq.beq, hcuts.1, hcuts.2, decide_true, Bool.and_self]

/-- A test for a range writes any range with the same bounds. -/
theorem writes_of_ofInterval {p : Predicate}
    (h : p.Writes r ((NumericValues.ofInterval jv).Mem ((r.value a).map Value.toEReal)))
    (hmem : ∀ x, iv.Mem x ↔ jv.Mem x) :
    p.Writes r (∃ x, (r.value a).map Value.toEReal = some x ∧ iv.Mem x) := by
  refine h.congr ?_
  rw [NumericValues.mem_ofInterval]
  exact exists_congr fun x ↦ and_congr_right fun _ ↦ (hmem x).symm

/-- **A range is written by those of its bounds that leave something out.** -/
theorem writes_toPredicate (hk : ctx.kind? a = some .numeric) (iv : Interval) :
    (iv.toPredicate a).Writes r (∃ x, (r.value a).map Value.toEReal = some x ∧ iv.Mem x) := by
  have hbound : ∀ op x, Predicate.Writes r (.compare (.text a) op (.double x))
      ((op.numericValues x).Mem ((r.value a).map Value.toEReal)) := Predicate.writes_compare hk
  rw [toPredicate]
  simp only
  split
  · rename_i hpoint
    refine (hbound .eq iv.low).congr ?_
    rw [Comparison.numericValues, NumericValues.mem_points]
    simp only [List.mem_singleton, exists_eq_left, mem_of_isPoint hpoint, exists_eq_right]
  split
  · rename_i hall
    simp only [Bool.and_eq_true, Double.beq_iff] at hall
    have hmem : ∀ x, iv.Mem x := fun x ↦
      (mem_iff_of_bounds hall.1.1 hall.1.2 hall.2.1 hall.2.2 x).2 (mem_realLine x)
    refine (Predicate.writes_isNull hk).not.congr ?_
    simp only [hmem, and_true]
    cases r.value a <;> simp
  split
  · rename_i hstart
    simp only [Bool.and_eq_true, Double.beq_iff] at hstart
    cases hh : iv.highIncluded
    · exact writes_of_ofInterval (hbound .lt iv.high)
        (mem_iff_of_bounds hstart.1 hstart.2 rfl hh)
    · exact writes_of_ofInterval (hbound .le iv.high)
        (mem_iff_of_bounds hstart.1 hstart.2 rfl hh)
  split
  · rename_i hend
    simp only [Bool.and_eq_true, Double.beq_iff] at hend
    cases hl : iv.lowIncluded
    · exact writes_of_ofInterval (hbound .gt iv.low) (mem_iff_of_bounds rfl hl hend.1 hend.2)
    · exact writes_of_ofInterval (hbound .ge iv.low) (mem_iff_of_bounds rfl hl hend.1 hend.2)
  · exact Predicate.writes_between hk iv

end Interval

/-! ## Value sets -/

namespace NumericValues

variable {a : String}

/-- The ranges of a set, or its single points where there are several. -/
def parts (a : String) (values : NumericValues) : List Predicate :=
  match values.intervals.points? with
  | some (x :: y :: rest) => [.isIn (.text a) (.ofDoubles (x :: y :: rest))]
  | _ => values.intervals.intervals.map (Interval.toPredicate a)

theorem writesAny_parts (hk : ctx.kind? a = some .numeric) (values : NumericValues) :
    Predicate.WritesAny r (values.parts a)
      (∃ x, (r.value a).map Value.toEReal = some x ∧ values.intervals.Mem x) := by
  rw [parts]
  split
  · rename_i x y rest hpoints
    have htest := (Predicate.tests_ofDoubles (r := r) hk (x :: y :: rest)).isIn _ fun _ h ↦ h
    refine (htest.congr ?_).any
    rw [Predicate.exists_isPointOf_ofDoubles]
    simp only [IntervalSet.mem_of_points? hpoints]
    constructor
    · rintro ⟨d, hd, hv⟩
      exact ⟨_, hv, d, hd, rfl⟩
    · rintro ⟨_, hv, d, hd, rfl⟩
      exact ⟨d, hd, hv⟩
  · refine ⟨(Predicate.writesAny_map fun iv _ ↦ Interval.writes_toPredicate hk iv).1,
      (Predicate.writesAny_map fun iv _ ↦ Interval.writes_toPredicate hk iv).2.trans ?_⟩
    constructor
    · rintro ⟨iv, hiv, x, hv, hx⟩
      exact ⟨x, hv, iv, hiv, hx⟩
    · rintro ⟨x, hv, iv, hiv, hx⟩
      exact ⟨iv, hiv, x, hv, hx⟩

theorem toPredicate_eq (a : String) (values : NumericValues) : values.toPredicate a =
    match values.complement.null, values.complement.intervals.points? with
    | false, some (hole :: holes) => .noneOf a (.ofDoubles (hole :: holes))
    | _, _ => .disjunction (Predicate.nullPart a values.null ++ values.parts a) := rfl

/-- **A set of numbers is written as what it says.** -/
theorem writes_toPredicate (hk : ctx.kind? a = some .numeric) (values : NumericValues) :
    (values.toPredicate a).Writes r (values.Mem ((r.value a).map Value.toEReal)) := by
  rw [toPredicate_eq]
  split
  · -- only a few numbers are left out
    rename_i hole holes hnull hpoints
    refine (Predicate.tests_ofDoubles hk _).writes_noneOf.congr ?_
    rw [Predicate.exists_isPointOf_ofDoubles, not_iff_comm, ← mem_complement]
    cases r.value a with
    | none => simp [Mem, hnull]
    | some v => simp [Mem, IntervalSet.mem_of_points? hpoints]
  · have h := (Predicate.writesAny_nullPart (r := r) hk values.null).append
      (writesAny_parts hk values)
    refine h.disjunction.congr ?_
    cases r.value a with
    | none => simp [Mem]
    | some v => simp [Mem]

end NumericValues

namespace DiscreteValues

variable {a : String} {k : Kind}

/-- One of the values is the value of the attribute. -/
theorem exists_key_iff {values : Distinct Scalar} {k : Option Scalar.Key} :
    (∃ s ∈ values.toList, k = some s.key) ↔ values.HasKey k :=
  exists_congr fun _ ↦ and_congr_right fun _ ↦ eq_comm

/-- **A set of discrete values is written as what it says**, given all that there is. -/
theorem writes_toPredicate {values full : DiscreteValues} (hk : ctx.kind? a = some k)
    (hk' : k ≠ .numeric) (hfull : full.Mem ((r.value a).map Value.key?))
    (hvalues : ∀ s ∈ values.values.toList, r.Compares a s)
    (hdomain : ∀ s ∈ full.values.toList, r.Compares a s) :
    (values.toPredicate a full).Writes r (values.Mem ((r.value a).map Value.key?)) := by
  have htests : ∀ ws : Distinct Scalar, (∀ s ∈ ws.toList, r.Compares a s) →
      Predicate.Tests r a ws fun s ↦ (r.value a).bind Value.key? = some s.key :=
    fun _ hc ↦ Predicate.tests_discrete hk hk' hc
  rw [toPredicate]
  split
  · rename_i hco
    rw [mem_iff_of_cofinite hco]
    refine Predicate.WritesAll.conjunction (.append ?_ ?_)
    · split
      · rename_i hnull
        exact Predicate.writesAll_nil (.inl hnull)
      · rename_i hnull
        rw [or_iff_right hnull]
        exact (Predicate.writes_isNull hk).not.all
    · split
      · rename_i hempty
        rw [Distinct.isEmpty_iff] at hempty
        exact Predicate.writesAll_nil fun ⟨s, hs, _⟩ ↦ hempty s hs
      · refine ((htests _ hvalues).writes_noneOf.congr ?_).all
        rw [exists_key_iff]
  · rename_i hco
    rw [Bool.not_eq_true] at hco
    simp only
    split
    · rename_i hout
      simp only [Bool.and_eq_true, Bool.not_eq_true'] at hout
      have hcompares : ∀ s ∈ (values.complement.inter full).values.toList, r.Compares a s :=
        fun s hs ↦ (ValueSet.mem_values_inter hs).elim (hvalues s) (hdomain s)
      refine (htests _ hcompares).writes_noneOf.congr ?_
      rw [exists_key_iff, not_iff_comm, ← mem_complement,
        ← and_iff_left (a := values.complement.Mem _) hfull, ← mem_inter,
        mem_iff_of_not_cofinite hout.1.1.2]
      simp [hout.1.1.1]
    · rw [mem_iff_of_not_cofinite hco]
      refine ((Predicate.writesAny_nullPart hk _).append ?_).disjunction
      split
      · rename_i hempty
        rw [Distinct.isEmpty_iff] at hempty
        exact Predicate.writesAny_nil fun ⟨s, hs, _⟩ ↦ hempty s hs
      · refine ((htests _ hvalues).writes_oneOf.congr ?_).any
        rw [exists_key_iff]

end DiscreteValues

theorem ValueSet.writes_toPredicate {a : String} {vs : ValueSet} (h : vs.Demand r a) :
    (vs.toPredicate ctx a).Writes r (vs.Mem (r.value a)) := by
  cases h.full.shaped with
  | numeric hk => exact NumericValues.writes_toPredicate hk _
  | discrete hk hk' hfull =>
    rw [toPredicate, hfull]
    exact DiscreteValues.writes_toPredicate hk hk' (r.full_mem hfull) (h.writable _ rfl)
      (r.compares_domain hfull)

/-! ## Terms -/

theorem Predicate.mem_sorted {p : Predicate} {ps : List Predicate} :
    p ∈ Predicate.sorted ps ↔ p ∈ ps := by
  simp [Predicate.sorted]

namespace Term

variable {t : Term} {ts : List Term}

theorem mem_sortedLiterals {l : OpaqueLiteral} :
    l ∈ t.sortedLiterals ↔ l ∈ t.literals.toList := by
  simp [sortedLiterals]

theorem writes_toPredicate (h : t.Valid r) : (t.toPredicate ctx).Writes r (t.Sat r) := by
  have hcs : Predicate.WritesAll r (t.constraints.map fun c ↦ c.2.toPredicate ctx c.1)
      (ConstraintsHold r t.constraints) :=
    Predicate.writesAll_map fun c hc ↦ ValueSet.writes_toPredicate (h.constraints.demands c hc)
  have hls : Predicate.WritesAll r
      (t.sortedLiterals.map fun l ↦ if l.positive then l.atom else .not l.atom)
      (∀ l ∈ t.literals.toList, l.Sat r) := by
    have hmap : ∀ l ∈ t.sortedLiterals,
        (if l.positive then l.atom else .not l.atom : Predicate).Writes r (l.Sat r) := by
      intro l hl
      have hop := h.opaques l (mem_sortedLiterals.1 hl)
      have hatom : l.atom.IsAtom := hop.member.isAtom
      have hw : l.atom.Writes r (r.truth l.atom) :=
        ⟨hatom.allAtoms_iff.2 hop.knows, hatom.isTrue_iff⟩
      rw [OpaqueLiteral.Sat]
      split
      · rename_i hpos
        exact hw.congr (iff_true_right hpos).symm
      · rename_i hpos
        exact hw.not.congr (iff_false_right hpos).symm
    have hw := Predicate.writesAll_map hmap
    simp only [mem_sortedLiterals] at hw
    exact hw
  exact (hcs.append hls).conjunction

/-- **A normal form is written as what its terms say.** -/
theorem writes_disjunctionOf (h : AllValid r ts) :
    (disjunctionOf ctx ts).Writes r (AnySat r ts) := by
  have hw : Predicate.WritesAny r (ts.map (toPredicate ctx)) (AnySat r ts) :=
    Predicate.writesAny_map fun t ht ↦ writes_toPredicate (h t ht)
  refine Predicate.WritesAny.disjunction ⟨fun p hp ↦ hw.1 p (Predicate.mem_sorted.1 hp), ?_⟩
  simp only [Predicate.mem_sorted]
  exact hw.2

end Term

end RuleCoverage
