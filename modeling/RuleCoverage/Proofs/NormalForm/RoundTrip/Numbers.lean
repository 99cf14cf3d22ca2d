import RuleCoverage.Proofs.Interval.Spelling
import RuleCoverage.Proofs.NormalForm.RoundTrip.Joined
import RuleCoverage.Proofs.NormalForm.RoundTrip.Sorted

/-!
# Sets of numbers are read as they are written

The predicate that a set of numbers is written as is read as one demand for the same numbers
(`NumericValues.readsAs_toPredicate`).  It may be spelled differently, since a bound is written once
where an interval has it twice, but it is written in the same way again
(`NumericValues.toPredicate_reread`).
-/

set_option autoImplicit false

namespace RuleCoverage

variable {ctx : Interpretation} {r : Reading ctx} {a : String}

/-! ## Atoms -/

namespace Predicate

variable {atom : Predicate} {vs ws full : ValueSet} {k : Kind}

/-- An interpreted atom becomes the demand for its values, or for the other ones. -/
theorem expandAtom_of_values (hn : atom.named? = some a) (hvs : ctx.values? atom = .ok (some vs))
    (hfull : ctx.full? a = some full) (negated : Bool)
    (hws : (if negated then vs.complement else vs).inter full = ws) (hd : ws.ProperDemand r a) :
    expandAtom ctx atom negated = .ok [.ofValues a ws] := by
  obtain ⟨k, hk, -⟩ := Interpretation.full?_eq_some hfull
  have hmissing := Interpretation.not_isMissing hk
  have hempty : ¬ ws.isEmpty = true := by
    rw [ValueSet.isEmpty_iff, not_forall_not]
    exact hd.demand.nonempty
  rw [named?] at hn
  rw [expandAtom]
  simp only [hn, Option.any_some, hmissing, hvs]
  simp only [Option.bind_some, hfull, Option.map_some, bind, Except.bind]
  rw [hws, if_neg hempty, if_neg (hd.proper full hfull)]
  rfl

theorem readsAs_atom (hatom : atom.IsAtom) (hn : atom.named? = some a)
    (hvs : ctx.values? atom = .ok (some vs)) (hfull : ctx.full? a = some full)
    (hws : vs.inter full = ws) (hd : ws.ProperDemand r a) : ReadsAs ctx atom (.ofValues a ws) := by
  have h := expandAtom_of_values hn hvs hfull false hws hd
  cases atom <;> first | exact hatom.elim | exact h

theorem readsAs_not_atom (hatom : atom.IsAtom) (hn : atom.named? = some a)
    (hvs : ctx.values? atom = .ok (some vs)) (hfull : ctx.full? a = some full)
    (hws : vs.complement.inter full = ws) (hd : ws.ProperDemand r a) :
    ReadsAs ctx (.not atom) (.ofValues a ws) := by
  have h := expandAtom_of_values hn hvs hfull true hws hd
  cases atom <;> first | exact hatom.elim | exact h

end Predicate

/-! ## Demands for numbers -/

namespace NumericValues

variable {ns : NumericValues}

/-- The line takes nothing away. -/
theorem inter_full (ns : NumericValues) : ns.inter .full = ns := by
  obtain ⟨s, null⟩ := ns
  show NumericValues.mk (s.inter .full) (null && true) = _
  rw [IntervalSet.inter_full, Bool.and_true]

/-- A set of numbers that is not empty and not everything is a proper demand. -/
theorem properDemand (hk : ctx.kind? a = some .numeric) {v w : Option Value}
    (hv : (ValueSet.numeric ns).Mem v) (hw : ¬ (ValueSet.numeric ns).Mem w) :
    (ValueSet.numeric ns).ProperDemand r a := by
  have hfull := Interpretation.full?_numeric hk
  refine ⟨⟨⟨_, hfull, rfl⟩, ?_, ⟨v, hv⟩, ?_⟩, ?_⟩
  · intro full hfull' _ _
    cases hfull.symm.trans hfull'
    exact mem_full _
  · rintro d ⟨⟩
  · intro full hfull' heq
    cases hfull.symm.trans hfull'
    exact hw ((ValueSet.mem_congr heq w).2 (mem_full _))

theorem mem_value_iff (x : EReal) :
    (ValueSet.numeric ns).Mem (some (.number x)) ↔ ns.Mem (some x) := Iff.rfl

/-- An interval is a demand for numbers, none of them missing. -/
theorem properDemand_ofInterval (hk : ctx.kind? a = some .numeric) {iv : Interval}
    (h : iv.lowCut < iv.highCut) : (ValueSet.numeric (ofInterval iv)).ProperDemand r a := by
  obtain ⟨x, hx⟩ := Interval.exists_mem h
  refine properDemand hk (v := some (.number x)) (w := none) ?_ Bool.false_ne_true
  exact (mem_value_iff x).2 ((mem_ofInterval iv _).2 ⟨x, rfl, hx⟩)

end NumericValues

namespace Predicate

variable {atom : Predicate} {ns : NumericValues}

theorem values?_of_numeric (hk : ctx.kind? a = some .numeric) (hn : atom.named? = some a)
    (hnull : ∀ b, atom ≠ .isNull b) (hns : atom.numericValues? = .ok (some ns)) :
    ctx.values? atom = .ok (some (.numeric ns)) := by
  rw [Interpretation.values?_numeric hn hk hnull, hns]
  rfl

theorem readsAs_numeric (hk : ctx.kind? a = some .numeric) (hatom : atom.IsAtom)
    (hn : atom.named? = some a) (hnull : ∀ b, atom ≠ .isNull b)
    (hns : atom.numericValues? = .ok (some ns)) (hd : (ValueSet.numeric ns).ProperDemand r a) :
    ReadsAs ctx atom (.ofValues a (.numeric ns)) :=
  readsAs_atom hatom hn (values?_of_numeric hk hn hnull hns) (Interpretation.full?_numeric hk)
    (congrArg ValueSet.numeric ns.inter_full) hd

/-- A comparison with a number is read as the demand that it is. -/
theorem readsAs_compare (hk : ctx.kind? a = some .numeric) {op : Comparison} {x : Double}
    (hns : op.numericValues x = ns) (hd : (ValueSet.numeric ns).ProperDemand r a) :
    ReadsAs ctx (.compare (.text a) op (.double x)) (.ofValues a (.numeric ns)) := by
  have hatom : IsAtom (.compare (.text a) op (.double x)) := trivial
  exact readsAs_numeric hk hatom rfl (by simp) (congrArg (Except.ok ∘ some) hns) hd

theorem values?_isNull_numeric (hk : ctx.kind? a = some .numeric) :
    ctx.values? (.isNull (.text a)) = .ok (some (.numeric .onlyNull)) :=
  Interpretation.values?_isNull hk

end Predicate

/-! ## Intervals -/

namespace Interval

variable {iv : Interval}

theorem eq_of_fields {jv : Interval} (hlow : iv.low = jv.low) (hhigh : iv.high = jv.high)
    (hlow' : iv.lowIncluded = jv.lowIncluded) (hhigh' : iv.highIncluded = jv.highIncluded) :
    iv = jv := by
  obtain ⟨l, h, li, hi, hle⟩ := iv
  obtain ⟨l', h', li', hi', hle'⟩ := jv
  obtain rfl : l = l' := hlow
  obtain rfl : h = h' := hhigh
  obtain rfl : li = li' := hlow'
  obtain rfl : hi = hi' := hhigh'
  rfl

theorem eq_realLine (hlow : (iv.low == .negInf && iv.lowIncluded) = true)
    (hhigh : (iv.high == .posInf && iv.highIncluded) = true) : iv = realLine := by
  simp only [Bool.and_eq_true, Double.beq_iff] at hlow hhigh
  exact eq_of_fields (Double.eq_negInf hlow.1) (Double.eq_posInf hhigh.1) hlow.2 hhigh.2

/-- An interval from the start of the line is what lies before its other bound. -/
theorem numericValues_of_start (h : (iv.low == .negInf && iv.lowIncluded) = true) :
    (if iv.highIncluded then Comparison.le else .lt).numericValues iv.high = .ofInterval iv := by
  simp only [Bool.and_eq_true, Double.beq_iff] at h
  have hlow := Double.eq_negInf h.1
  cases hh : iv.highIncluded <;>
    exact congrArg NumericValues.ofInterval (eq_of_fields hlow.symm rfl h.2.symm hh.symm)

/-- An interval to the end of the line is what lies behind its other bound. -/
theorem numericValues_of_end (h : (iv.high == .posInf && iv.highIncluded) = true) :
    (if iv.lowIncluded then Comparison.ge else .gt).numericValues iv.low = .ofInterval iv := by
  simp only [Bool.and_eq_true, Double.beq_iff] at h
  have hhigh := Double.eq_posInf h.1
  cases hl : iv.lowIncluded <;>
    exact congrArg NumericValues.ofInterval (eq_of_fields rfl hhigh.symm hl.symm h.2.symm)

/-- **A written interval is read as this interval.** -/
theorem readsAs_toPredicate (r : Reading ctx) (hk : ctx.kind? a = some .numeric)
    (h : iv.lowCut < iv.highCut) :
    (iv.toPredicate a).ReadsAs ctx (.ofValues a (.numeric (.ofInterval iv.reread))) := by
  have hreread : iv.reread.lowCut < iv.reread.highCut := by
    obtain ⟨hlow, hhigh⟩ := (beq_iff _ _).1 iv.reread_beq
    rwa [hlow, hhigh]
  have hd := NumericValues.properDemand_ofInterval (r := r) hk hreread
  rw [toPredicate]
  rw [reread] at hd ⊢
  simp only
  split
  · rename_i hpoint
    rw [if_pos hpoint] at hd
    exact Predicate.readsAs_compare hk rfl hd
  rename_i hpoint
  rw [if_neg hpoint] at hd
  split
  · rename_i hall
    obtain ⟨hlow, hhigh⟩ := Bool.and_eq_true_iff.1 hall
    have hatom : Predicate.IsAtom (.isNull (.text a)) := trivial
    refine Predicate.readsAs_not_atom hatom rfl (Predicate.values?_isNull_numeric hk)
      (Interpretation.full?_numeric hk) ?_ hd
    rw [eq_realLine hlow hhigh]
    exact congrArg ValueSet.numeric (NumericValues.inter_full _)
  split
  · exact Predicate.readsAs_compare hk (numericValues_of_start ‹_›) hd
  split
  · exact Predicate.readsAs_compare hk (numericValues_of_end ‹_›) hd
  · have hatom : Predicate.IsAtom (.between (.text a) (.double iv.low) (.double iv.high)
        iv.lowIncluded iv.highIncluded) := trivial
    refine Predicate.readsAs_numeric hk hatom rfl (by simp) ?_ hd
    show (if ok : iv.low ≤ iv.high then _ else _) = _
    rw [dif_pos iv.low_le_high]
    rfl

end Interval

/-! ## Sets of points -/

namespace Distinct

/-- Ascending numbers are different scalars. -/
theorem toList_ofDoubles {xs : List Double} (h : IntervalSet.AscendingKeys xs) :
    (ofDoubles xs).toList = xs.map .double := by
  refine toList_ofList (List.pairwise_map.2 (h.imp fun {x y} hlt ↦ ?_))
  rw [Bool.eq_false_iff, ne_eq, Scalar.beq_iff_key]
  intro hkey
  have hval : x.toEReal = y.toEReal := congrArg Extended.toEReal (Scalar.Key.number.inj hkey)
  rw [Double.toEReal_inj] at hval
  omega

/-- The scalars of ascending numbers in the order of their texts. -/
theorem exists_sorted_ofDoubles {xs : List Double} (h : IntervalSet.AscendingKeys xs) :
    ∃ zs : List Double, zs.Perm xs ∧ (ofDoubles xs).sorted = zs.map .double := by
  have hperm : (ofDoubles xs).sorted.Perm (xs.map .double) := by
    rw [← toList_ofDoubles h]
    exact List.mergeSort_perm _ _
  have hdoubles : ∀ s ∈ (ofDoubles xs).sorted, ∃ x, s = .double x := by
    intro s hs
    obtain ⟨x, -, rfl⟩ := List.mem_map.1 (hperm.mem_iff.1 hs)
    exact ⟨x, rfl⟩
  obtain ⟨zs, hzs⟩ := Predicate.exists_map_double hdoubles
  rw [hzs] at hperm ⊢
  exact ⟨zs, (List.map_perm_map_iff fun _ _ h ↦ Scalar.double.inj h).1 hperm, rfl⟩

end Distinct

/-! ## Sets of numbers -/

namespace NumericValues

variable {ns : NumericValues}

/-- The set as the predicate reads that it is written by. -/
def reread (ns : NumericValues) : NumericValues :=
  match ns.complement.null, ns.complement.intervals.points? with
  | false, some (hole :: holes) => (points (hole :: holes)).complement
  | _, _ => ⟨ns.intervals.reread, ns.null⟩

/-- What is read are the same numbers. -/
theorem reread_beq (ns : NumericValues) : (ns.reread == ns) = true := by
  rw [reread]
  split
  · rename_i hole holes hnull hpoints
    rw [beq_iff]
    intro v
    rw [mem_complement, mem_points, not_iff_comm, ← mem_complement]
    cases v with
    | none => simp [Mem, hnull]
    | some x => simp [Mem, IntervalSet.mem_of_points? hpoints]
  · show (ns.intervals.reread == ns.intervals && ns.null == ns.null) = true
    rw [IntervalSet.reread_beq, beq_self_eq_true, Bool.and_self]

theorem parts_reread {s : IntervalSet} {null : Bool} :
    parts a ⟨s.reread, null⟩ = parts a ⟨s, null⟩ := by
  have hmap : s.reread.intervals.map (Interval.toPredicate a) =
      s.intervals.map (Interval.toPredicate a) := by
    rw [IntervalSet.reread, List.map_map]
    exact List.map_congr_left fun iv _ ↦ iv.toPredicate_reread a
  rw [parts, parts]
  simp only [IntervalSet.points?_reread, hmap]

/-- The points of two sets that are equal are the same numbers. -/
theorem isSome_points?_congr {s t : IntervalSet} (h : (s == t) = true) {x : Double}
    {xs : List Double} (hs : s.points? = some (x :: xs)) : ∃ y ys, t.points? = some (y :: ys) := by
  have hsymm : (t == s) = true := by
    rw [IntervalSet.beq_iff_mem] at h ⊢
    exact fun x ↦ (h x).symm
  obtain ⟨ys, hys, hkeys⟩ := IntervalSet.points?_congr hsymm hs
  cases hkeys with
  | cons => exact ⟨_, _, hys⟩

section holes

variable {hole : Double} {holes : List Double}

theorem reread_of_holes (hnull : ns.complement.null = false)
    (hpoints : ns.complement.intervals.points? = some (hole :: holes)) :
    ns.reread = (points (hole :: holes)).complement := by
  rw [reread, hnull, hpoints]

theorem toPredicate_of_holes (hnull : ns.complement.null = false)
    (hpoints : ns.complement.intervals.points? = some (hole :: holes)) :
    ns.toPredicate a = .noneOf a (.ofDoubles (hole :: holes)) := by
  rw [toPredicate_eq, hnull, hpoints]

/-- Only a few numbers are left out, and they are written instead. -/
def HasHoles (ns : NumericValues) : Prop :=
  ns.complement.null = false ∧ ∃ hole holes, ns.complement.intervals.points? = some (hole :: holes)

theorem reread_of_not_hasHoles (h : ¬ ns.HasHoles) :
    ns.reread = ⟨ns.intervals.reread, ns.null⟩ := by
  rw [reread]
  split
  · rename_i hole holes hnull hpoints
    exact absurd ⟨hnull, hole, holes, hpoints⟩ h
  · rfl

theorem toPredicate_of_not_hasHoles (h : ¬ ns.HasHoles) :
    ns.toPredicate a = .disjunction (Predicate.nullPart a ns.null ++ ns.parts a) := by
  rw [toPredicate_eq]
  split
  · rename_i hole holes hnull hpoints
    exact absurd ⟨hnull, hole, holes, hpoints⟩ h
  · rfl

theorem hasHoles_congr {ms : NumericValues} (h : (ms == ns) = true) (hms : ms.HasHoles) :
    ns.HasHoles := by
  have hcomplement : (ms.complement == ns.complement) = true := by
    rw [beq_iff] at h ⊢
    intro v
    rw [mem_complement, mem_complement, h]
  change (ms.complement.intervals == ns.complement.intervals &&
    ms.complement.null == ns.complement.null) = true at hcomplement
  rw [Bool.and_eq_true] at hcomplement
  obtain ⟨hnull, hole, holes, hpoints⟩ := hms
  exact ⟨(beq_iff_eq.1 hcomplement.2).symm.trans hnull, isSome_points?_congr hcomplement.1 hpoints⟩

end holes

/-- **What is read is written in the same way.** -/
theorem toPredicate_reread (a : String) (ns : NumericValues) :
    ns.reread.toPredicate a = ns.toPredicate a := by
  by_cases h : ns.HasHoles
  · obtain ⟨hnull, hole, holes, hpoints⟩ := h
    have hreread := reread_of_holes hnull hpoints
    have hnull' : ns.reread.complement.null = false := by rw [hreread]; rfl
    have hpoints' : ns.reread.complement.intervals.points? = some (hole :: holes) := by
      rw [hreread]
      exact IntervalSet.points?_complement_points (IntervalSet.ascendingKeys_of_points? hpoints)
    rw [toPredicate_of_holes hnull hpoints, toPredicate_of_holes hnull' hpoints']
  · have h' : ¬ ns.reread.HasHoles := mt (hasHoles_congr ns.reread_beq) h
    rw [toPredicate_of_not_hasHoles h, toPredicate_of_not_hasHoles h', reread_of_not_hasHoles h,
      parts_reread]

/-! ## Reading -/

/-- The union of a set with intervals behind it. -/
theorem foldl_union {null : Bool} {ivs : List Interval} {s t : IntervalSet}
    (h : IntervalSet.Canonical (s.intervals ++ ivs)) (ht : t.intervals = s.intervals ++ ivs) :
    (ivs.map fun iv ↦ ValueSet.numeric (.ofInterval iv)).foldl ValueSet.union
      (.numeric ⟨s, null⟩) = .numeric ⟨t, null⟩ := by
  induction ivs generalizing s with
  | nil =>
    rw [List.append_nil] at ht
    rw [IntervalSet.eq_of_intervals ht]
    rfl
  | cons iv ivs ih =>
    have hsingle : (IntervalSet.ofList [iv]).intervals = [iv] :=
      IntervalSet.intervals_ofList (IntervalSet.canonical_singleton (h.nonempty iv (by simp)))
    have hprefix : IntervalSet.Canonical (s.intervals ++ (IntervalSet.ofList [iv]).intervals) := by
      rw [hsingle]
      exact h.sublist ((List.singleton_sublist.2 List.mem_cons_self).append_left _)
    have hunion := IntervalSet.intervals_union hprefix
    rw [hsingle] at hunion
    have hrest : s.intervals ++ iv :: ivs = (s.union (.ofList [iv])).intervals ++ ivs := by
      rw [hunion, List.append_assoc, List.singleton_append]
    rw [List.map_cons, List.foldl_cons]
    show List.foldl _ (ValueSet.numeric ⟨s.union (.ofList [iv]), null || false⟩) _ = _
    rw [Bool.or_false]
    rw [hrest] at h ht
    exact ih h ht

/-- Intervals that leave gaps are disjoint, and none of them has the missing value. -/
theorem pairwise_disjoint {ivs : List Interval} (h : IntervalSet.Canonical ivs) :
    (ivs.map fun iv ↦ ValueSet.numeric (.ofInterval iv)).Pairwise ValueSet.Disjoint := by
  rw [List.pairwise_map]
  refine h.separated.imp fun {iv jv} hlt v hiv hjv ↦ ?_
  obtain ⟨x, hx, hxi⟩ := (mem_ofInterval iv _).1 hiv
  obtain ⟨y, hy, hyj⟩ := (mem_ofInterval jv _).1 hjv
  obtain rfl : x = y := Option.some.inj (hx.symm.trans hy)
  exact hxi.2 (hyj.1.ended (Int.le_of_lt hlt))

/-- The same numbers are a proper demand however they are spelled. -/
theorem properDemand_congr {ms : NumericValues} (h : (ms == ns) = true)
    (hd : (ValueSet.numeric ns).ProperDemand r a) : (ValueSet.numeric ms).ProperDemand r a :=
  hd.congr h (by rintro d ⟨⟩)

theorem properDemand_onlyNull (r : Reading ctx) (hk : ctx.kind? a = some .numeric) :
    (ValueSet.numeric .onlyNull).ProperDemand r a := by
  have hnull : (ValueSet.numeric .onlyNull).Mem none := rfl
  have hzero : ¬ (ValueSet.numeric .onlyNull).Mem (some (.number 0)) :=
    IntervalSet.not_mem_empty _
  exact properDemand hk hnull hzero

theorem readsAs_isNull (r : Reading ctx) (hk : ctx.kind? a = some .numeric) :
    Predicate.ReadsAs ctx (.isNull (.text a)) (.ofValues a (.numeric .onlyNull)) := by
  have hatom : Predicate.IsAtom (.isNull (.text a)) := trivial
  exact Predicate.readsAs_atom hatom rfl (Predicate.values?_isNull_numeric hk)
    (Interpretation.full?_numeric hk) (congrArg ValueSet.numeric (inter_full _))
    (properDemand_onlyNull r hk)

/-- A membership in numbers that are all listed once, in whatever order. -/
theorem numericValues?_isIn {xs zs : List Double} {vs : Distinct Scalar}
    (hxs : IntervalSet.AscendingKeys xs) (hperm : zs.Perm xs) (hvs : vs.toList = zs.map .double) :
    (Predicate.isIn (.text a) vs).numericValues? = .ok (some (points xs)) := by
  have hpoints : IntervalSet.points zs = IntervalSet.points xs := by
    refine IntervalSet.eq_of_intervals ?_
    rw [IntervalSet.intervals_points hxs hperm, IntervalSet.intervals_points hxs (.refl xs)]
  rw [Predicate.numericValues?, hvs, Predicate.numerics?_map_double]
  exact congrArg (fun s ↦ Except.ok (some (NumericValues.mk s false))) hpoints

theorem readsAs_isIn {xs : List Double} (hk : ctx.kind? a = some .numeric)
    (hxs : IntervalSet.AscendingKeys xs) (hd : (ValueSet.numeric (points xs)).ProperDemand r a) :
    Predicate.ReadsAs ctx (.isIn (.text a) (.ofDoubles xs))
      (.ofValues a (.numeric (points xs))) := by
  have hatom : Predicate.IsAtom (.isIn (.text a) (.ofDoubles xs)) := trivial
  exact Predicate.readsAs_numeric hk hatom rfl (by simp)
    (numericValues?_isIn hxs (.refl xs) (Distinct.toList_ofDoubles hxs)) hd

/-- Numbers that are taken away are read as such. -/
theorem readsAs_noneOf {xs : List Double} (hk : ctx.kind? a = some .numeric)
    (hxs : IntervalSet.AscendingKeys xs)
    (hd : (ValueSet.numeric (points xs).complement).ProperDemand r a) :
    (Predicate.noneOf a (.ofDoubles xs)).ReadsAs ctx
      (.ofValues a (.numeric (points xs).complement)) := by
  have hinter := congrArg ValueSet.numeric (inter_full (points xs).complement)
  obtain ⟨zs, hperm, hsorted⟩ := Distinct.exists_sorted_ofDoubles hxs
  rw [Predicate.noneOf]
  split
  · rename_i s hs
    rw [hs] at hsorted
    obtain ⟨z, rest, rfl, rfl, hrest⟩ := List.map_eq_cons_iff.1 hsorted.symm
    obtain rfl := List.map_eq_nil_iff.1 hrest
    obtain rfl := List.perm_singleton.1 hperm.symm
    have hatom : Predicate.IsAtom (.compare (.text a) .ne (.double z)) := trivial
    exact Predicate.readsAs_numeric hk hatom rfl (by simp) rfl hd
  · have hlist : (Distinct.ofList (Distinct.ofDoubles xs).sorted).toList = zs.map .double :=
      (Distinct.ofDoubles xs).toList_resorted.trans hsorted
    have hatom : Predicate.IsAtom
        (.isIn (.text a) (.ofList (Distinct.ofDoubles xs).sorted)) := trivial
    refine Predicate.readsAs_not_atom hatom rfl (Predicate.values?_of_numeric hk rfl (by simp)
      (numericValues?_isIn hxs hperm hlist)) (Interpretation.full?_numeric hk) hinter hd

theorem mem_reread {s : IntervalSet} {null : Bool} {v : Option Value} :
    (ValueSet.numeric ⟨s.reread, null⟩).Mem v ↔ (ValueSet.numeric ⟨s, null⟩).Mem v := by
  refine ValueSet.mem_congr ?_ v
  show (s.reread == s && null == null) = true
  rw [s.reread_beq, beq_self_eq_true, Bool.and_self]

/-- An interval of a set is among its numbers. -/
theorem mem_of_mem_ofInterval {s : IntervalSet} {null : Bool} {v : Option Value} {iv : Interval}
    (hiv : iv ∈ s.intervals) (h : (ValueSet.numeric (.ofInterval iv)).Mem v) :
    (ValueSet.numeric ⟨s, null⟩).Mem v := by
  obtain ⟨x, hx, hmem⟩ := (mem_ofInterval iv _).1 h
  rw [ValueSet.Mem, hx]
  exact ⟨iv, hiv, hmem⟩

section Intervals

variable {s : IntervalSet} {null : Bool}

/-- The ranges of a set are read one by one as its intervals. -/
theorem forall₂_readsAs_intervals (r : Reading ctx) (hk : ctx.kind? a = some .numeric)
    (s : IntervalSet) :
    List.Forall₂ (fun p vs ↦ Predicate.ReadsAs ctx p (.ofValues a vs))
      (s.intervals.map (Interval.toPredicate a))
      (s.reread.intervals.map fun iv ↦ ValueSet.numeric (.ofInterval iv)) := by
  rw [IntervalSet.reread, List.map_map, List.forall₂_map_left_iff, List.forall₂_map_right_iff,
    List.forall₂_same]
  exact fun iv hiv ↦ Interval.readsAs_toPredicate r hk (s.canonical.nonempty iv hiv)

theorem demand_of_mem_intervals (hk : ctx.kind? a = some .numeric) (s : IntervalSet) :
    ∀ vs ∈ s.intervals.map fun iv ↦ ValueSet.numeric (.ofInterval iv), vs.Demand r a := by
  rw [List.forall_mem_map]
  exact fun iv hiv ↦ (properDemand_ofInterval hk (s.canonical.nonempty iv hiv)).demand

/-- What is outside a set is outside each of its intervals. -/
theorem not_mem_of_mem_intervals {v : Option Value} (hv : ¬ (ValueSet.numeric ⟨s, null⟩).Mem v) :
    ∀ vs ∈ s.intervals.map fun iv ↦ ValueSet.numeric (.ofInterval iv), ¬ vs.Mem v := by
  rw [List.forall_mem_map]
  exact fun iv hiv hmem ↦ hv (mem_of_mem_ofInterval hiv hmem)

/-- A set that something is demanded of has null or an interval. -/
theorem exists_intervals_eq_cons {v : Option Value} (hv : (ValueSet.numeric ⟨s, false⟩).Mem v) :
    ∃ iv rest, s.intervals = iv :: rest := by
  rw [ValueSet.Mem] at hv
  cases hval : v.map Value.toEReal with
  | none =>
    rw [hval] at hv
    cases hv
  | some x =>
    rw [hval] at hv
    obtain ⟨iv, hiv, -⟩ := hv
    exact List.exists_cons_of_ne_nil (List.ne_nil_of_mem hiv)

/-- The test for null and the ranges of a set after it are read as the set with null. -/
theorem readsAs_null_or_intervals (hk : ctx.kind? a = some .numeric)
    (hd : (ValueSet.numeric ⟨s.reread, true⟩).ProperDemand r a) :
    (Predicate.disjunction (.isNull (.text a) :: s.intervals.map (Interval.toPredicate a))).ReadsAs
      ctx (.ofValues a (.numeric ⟨s.reread, true⟩)) := by
  have hfull := Interpretation.full?_numeric hk
  obtain ⟨w, -, hw⟩ := hd.exists_not_mem hfull
  have hsets : (s.reread.intervals.map fun iv ↦ ValueSet.numeric (.ofInterval iv)).foldl
      ValueSet.union (.numeric ⟨∅, true⟩) = .numeric ⟨s.reread, true⟩ :=
    foldl_union s.reread.canonical rfl
  rw [← hsets]
  refine Predicate.readsAs_foldl_or hfull (readsAs_isNull r hk) (forall₂_readsAs_intervals r hk s)
    (properDemand_onlyNull r hk).demand (demand_of_mem_intervals hk s.reread) ?_
    (v := w) (mem_full _) ?_
  · refine List.pairwise_cons.2 ⟨?_, pairwise_disjoint s.reread.canonical⟩
    rw [List.forall_mem_map]
    intro iv hiv v hv hmem
    obtain ⟨x, hx, -⟩ := (mem_ofInterval iv _).1 hmem
    cases hx.symm.trans ((mem_onlyNull _).1 hv)
  · refine List.forall_mem_cons.2 ⟨fun hmem ↦ hw ?_, not_mem_of_mem_intervals hw⟩
    rw [ValueSet.Mem, (mem_onlyNull _).1 hmem]
    rfl

/-- The ranges of a set, of which there is one, are read as the set. -/
theorem readsAs_some_intervals (hk : ctx.kind? a = some .numeric)
    (hd : (ValueSet.numeric ⟨s.reread, false⟩).ProperDemand r a) :
    (Predicate.disjunction (s.intervals.map (Interval.toPredicate a))).ReadsAs ctx
      (.ofValues a (.numeric ⟨s.reread, false⟩)) := by
  have hfull := Interpretation.full?_numeric hk
  obtain ⟨w, -, hw⟩ := hd.exists_not_mem hfull
  obtain ⟨v, hv⟩ := hd.demand.nonempty
  obtain ⟨iv, rest, hivs⟩ := exists_intervals_eq_cons (mem_reread.1 hv)
  have hreread : s.reread.intervals = iv.reread :: rest.map Interval.reread := by
    show s.intervals.map Interval.reread = _
    rw [hivs, List.map_cons]
  have hcanonical := s.reread.canonical
  have hreads := forall₂_readsAs_intervals r hk s
  have hdemands := demand_of_mem_intervals (r := r) hk s.reread
  have hdisjoint := pairwise_disjoint s.reread.canonical
  have hout := not_mem_of_mem_intervals hw
  rw [hreread] at hcanonical hreads hdemands hdisjoint hout
  rw [hivs, List.map_cons, List.map_cons, List.forall₂_cons] at hreads
  rw [List.map_cons, List.forall_mem_cons] at hdemands
  have hsingle : (IntervalSet.ofList [iv.reread]).intervals = [iv.reread] :=
    IntervalSet.intervals_ofList (IntervalSet.canonical_singleton
      (hcanonical.nonempty _ List.mem_cons_self))
  have hunion : ((rest.map Interval.reread).map fun iv ↦
      ValueSet.numeric (.ofInterval iv)).foldl ValueSet.union
        (.numeric ⟨.ofList [iv.reread], false⟩) = .numeric ⟨s.reread, false⟩ :=
    foldl_union (by rwa [hsingle]) (by rw [hsingle, hreread]; rfl)
  rw [← hunion, hivs]
  exact Predicate.readsAs_foldl_or hfull hreads.1 hreads.2 hdemands.1 hdemands.2 hdisjoint
    (v := w) (mem_full _) hout

/-- The ranges of a set, and before them the test for null, are read as the set. -/
theorem readsAs_intervals (hk : ctx.kind? a = some .numeric)
    (hd : (ValueSet.numeric ⟨s.reread, null⟩).ProperDemand r a) :
    (Predicate.disjunction (Predicate.nullPart a null ++
      s.intervals.map (Interval.toPredicate a))).ReadsAs ctx
        (.ofValues a (.numeric ⟨s.reread, null⟩)) := by
  cases null with
  | true => exact readsAs_null_or_intervals hk hd
  | false => exact readsAs_some_intervals hk hd

end Intervals

/-- Several numbers, and before them the test for null, are read as such. -/
theorem readsAs_points (hk : ctx.kind? a = some .numeric) {x : Double} {xs : List Double}
    {null : Bool}
    (hasc : IntervalSet.AscendingKeys (x :: xs))
    (hd : (ValueSet.numeric ⟨.points (x :: xs), null⟩).ProperDemand r a) :
    (Predicate.disjunction (Predicate.nullPart a null ++
      [.isIn (.text a) (.ofDoubles (x :: xs))])).ReadsAs ctx
        (.ofValues a (.numeric ⟨.points (x :: xs), null⟩)) := by
  have hmem : (ValueSet.numeric (points (x :: xs))).Mem (some (.number x.toEReal)) :=
    (mem_points _ _).2 ⟨x, List.mem_cons_self, rfl⟩
  have hdemand : (ValueSet.numeric (points (x :: xs))).ProperDemand r a :=
    properDemand hk hmem (w := none) Bool.false_ne_true
  have hisIn := readsAs_isIn hk hasc hdemand
  cases null with
  | false => exact hisIn
  | true =>
    have hfull := Interpretation.full?_numeric hk
    have hunion : NumericValues.onlyNull.union (points (x :: xs)) = ⟨.points (x :: xs), true⟩ := by
      show NumericValues.mk (IntervalSet.union ∅ (.points (x :: xs))) (true || false) = _
      rw [IntervalSet.empty_union, Bool.or_false]
    rw [← hunion] at hd ⊢
    refine Predicate.readsAs_or (readsAs_isNull r hk) hisIn (properDemand_onlyNull r hk).demand
      hdemand.demand ?_ ?_
    · intro v hv hmem
      obtain ⟨d, -, hd⟩ := (mem_points _ _).1 hmem
      cases hd.symm.trans ((mem_onlyNull _).1 hv)
    · rw [hfull, Option.some_beq_some]
      exact fun heq ↦ hd.proper _ hfull (BEq.symm heq)

/-- The parts of a set, and before them the test for null, are read as the set. -/
theorem readsAs_parts (hk : ctx.kind? a = some .numeric)
    (hd : (ValueSet.numeric ⟨ns.intervals.reread, ns.null⟩).ProperDemand r a) :
    (Predicate.disjunction (Predicate.nullPart a ns.null ++ ns.parts a)).ReadsAs ctx
      (.ofValues a (.numeric ⟨ns.intervals.reread, ns.null⟩)) := by
  rw [parts]
  split
  · rename_i x y rest hpoints
    have hasc := IntervalSet.ascendingKeys_of_points? hpoints
    have hset : IntervalSet.points (x :: y :: rest) = ns.intervals.reread := by
      refine IntervalSet.eq_of_intervals ?_
      rw [IntervalSet.intervals_points hasc (.refl _), IntervalSet.map_point_of_points? hpoints]
      rfl
    rw [← hset] at hd ⊢
    exact readsAs_points hk hasc hd
  · exact readsAs_intervals hk hd

/-- **A set of numbers is read as it is written.** -/
theorem readsAs_toPredicate (hk : ctx.kind? a = some .numeric)
    (hd : (ValueSet.numeric ns).ProperDemand r a) :
    (ns.toPredicate a).ReadsAs ctx (.ofValues a (.numeric ns.reread)) := by
  have hreread := properDemand_congr ns.reread_beq hd
  by_cases h : ns.HasHoles
  · obtain ⟨hnull, hole, holes, hpoints⟩ := h
    rw [toPredicate_of_holes hnull hpoints]
    rw [reread_of_holes hnull hpoints] at hreread ⊢
    exact readsAs_noneOf hk (IntervalSet.ascendingKeys_of_points? hpoints) hreread
  · rw [toPredicate_of_not_hasHoles h]
    rw [reread_of_not_hasHoles h] at hreread ⊢
    exact readsAs_parts hk hreread

end NumericValues

end RuleCoverage
