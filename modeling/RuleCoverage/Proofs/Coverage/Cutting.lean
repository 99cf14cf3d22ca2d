import RuleCoverage.Proofs.Coverage.Adding

/-!
# Cutting fragments

A difference cuts a fragment into at most three: what lies before and after the scales of the other
fragment, with the predicate as it was, and what is left on the scales that they share.  Together
they are just what the one fragment has and the other has not (`Fragment.difference_partition`), if
simplification keeps the truth of predicates.

The fragments of a selector come out of such cuts, after clauses of equal scale ranges have been
joined.  None of them is empty, and they tile what the selector selects
(`Coverage.toFragments_spec`).
-/

set_option autoImplicit false

namespace RuleCoverage

variable {row : Row} {x : Double} {simplify : Simplifier} {P : Predicate → Prop}

namespace Fragment

variable {a b f : Fragment} {fs gs : List Fragment}

/-! ## The parts of a difference -/

/-- A fragment of a difference is the whole of `a`, which does not meet `b`, or a part of it outside
of `b`, or lies on the overlap, where something is left. -/
theorem mem_difference (h : a.difference simplify b = .ok fs) (hf : f ∈ fs) :
    (f = a ∧ a.scale.intersect? b.scale = none) ∨
      (f.predicate = a.predicate ∧ f.scale ∈ a.scale.subtract b.scale) ∨
      (simplify (.and a.predicate (.not b.predicate)) = .ok f.predicate ∧ f.predicate ≠ .never ∧
        a.scale.intersect? b.scale = some f.scale) := by
  rcases difference_cases h with ⟨hnone, rfl⟩ | ⟨shared, inside, hshared, hinside, rfl⟩
  · exact .inl ⟨List.mem_singleton.1 hf, hnone⟩
  · rcases List.mem_append.1 hf with hf | hf
    · obtain ⟨piece, hpiece, rfl⟩ := List.mem_map.1 hf
      exact .inr (.inl ⟨rfl, hpiece⟩)
    · split at hf
      · cases hf
      · rename_i hne
        rw [List.mem_singleton.1 hf]
        refine .inr (.inr ⟨hinside, ?_, hshared⟩)
        rintro rfl
        exact hne rfl

/-- A difference has at most a part before, a part after, and one on the overlap. -/
theorem length_difference_le (h : a.difference simplify b = .ok fs) : fs.length ≤ 3 := by
  rcases difference_cases h with ⟨-, rfl⟩ | ⟨shared, inside, -, -, rfl⟩
  · exact Nat.le_add_left 1 2
  · have houtside := Interval.length_subtract_le a.scale b.scale
    rw [List.length_append, List.length_map]
    split <;> simp only [List.length_nil, List.length_singleton] <;> omega

/-- A difference has no empty scale range, unless `a` is empty and stays as it is. -/
theorem isEmpty_of_mem_difference (h : a.difference simplify b = .ok fs)
    (ha : a.scale.isEmpty = false) (hf : f ∈ fs) : f.scale.isEmpty = false := by
  rcases mem_difference h hf with ⟨rfl, -⟩ | ⟨-, hpiece⟩ | ⟨-, -, hshared⟩
  · exact ha
  · exact Interval.isEmpty_of_mem_subtract hpiece
  · have hcuts := Interval.nonempty_of_intersect? hshared
    simpa [Interval.isEmpty] using hcuts

/-- A fragment of a difference keeps the predicate outside the scales of `b`, or it has the scales
that `a` and `b` share. -/
theorem scale_of_mem_difference (h : a.difference simplify b = .ok fs) (hf : f ∈ fs) :
    (f.predicate = a.predicate ∧ ∀ y, f.scale.Mem y → a.scale.Mem y ∧ ¬ b.scale.Mem y) ∨
      (a.scale.intersect? b.scale = some f.scale ∧
        ∀ y, f.scale.Mem y ↔ a.scale.Mem y ∧ b.scale.Mem y) := by
  rcases mem_difference h hf with ⟨rfl, hnone⟩ | ⟨hpredicate, hpiece⟩ | ⟨-, -, hshared⟩
  · refine .inl ⟨rfl, fun y hy ↦ ⟨hy, fun hb ↦ ?_⟩⟩
    obtain ⟨_, hc, -⟩ := (Interval.mem_intersect? _ _ y).2 ⟨hy, hb⟩
    rw [hnone] at hc
    cases hc
  · exact .inl ⟨hpredicate, fun y hy ↦ (Interval.mem_subtract _ _ y).1 ⟨_, hpiece, hy⟩⟩
  · refine .inr ⟨hshared, fun y ↦ ?_⟩
    rw [← Interval.mem_intersect?, hshared]
    simp

/-- There is a difference wherever simplification gives a result. -/
theorem exists_difference {q : Predicate}
    (h : simplify (.and a.predicate (.not b.predicate)) = .ok q) :
    ∃ fs, a.difference simplify b = .ok fs := by
  rw [difference]
  split
  · exact ⟨_, rfl⟩
  · rw [h]
    exact ⟨_, rfl⟩

/-- **A difference partitions what the one fragment has and the other has not** into at most three
fragments, none of them empty if the first one was not, and each of them with its predicate outside
the scales of the second one or else on just the scales that they share.  Simplification may be any
function that keeps the truth of a class of predicates on the row. -/
theorem difference_partition (simplify : Simplifier) (a b : Fragment) :
    (∀ q, simplify (.and a.predicate (.not b.predicate)) = .ok q →
      ∃ fs, a.difference simplify b = .ok fs) ∧
    ∀ fs, a.difference simplify b = .ok fs →
      fs.length ≤ 3 ∧
      (∀ (row : Row) (P : Predicate → Prop), simplify.KeepsOn row P → P a.predicate →
        P b.predicate → ∀ x : Double,
          (∀ f ∈ a :: b :: fs, f.mask row.tests row.toFrame (.double x) = .ok [f.holds row x]) ∧
          fs.countP (holds row x) = (a.holds row x && !b.holds row x).toNat) ∧
      (a.scale.isEmpty = false → ∀ f ∈ fs, f.scale.isEmpty = false) ∧
      ∀ f ∈ fs,
        (f.predicate = a.predicate ∧ ∀ y, f.scale.Mem y → a.scale.Mem y ∧ ¬ b.scale.Mem y) ∨
          (a.scale.intersect? b.scale = some f.scale ∧
            ∀ y, f.scale.Mem y ↔ a.scale.Mem y ∧ b.scale.Mem y) := by
  refine ⟨fun q ↦ exists_difference, fun fs h ↦ ⟨length_difference_le h, ?_, ?_, ?_⟩⟩
  · intro row P hs ha hb x
    obtain ⟨hfs, hdepth⟩ := depth_difference (x := x) hs ha hb h
    refine ⟨fun f hf ↦ mask_toFrame (hs.exists_holds ?_), hdepth⟩
    rcases List.mem_cons.1 hf with rfl | hf
    · exact ha
    rcases List.mem_cons.1 hf with rfl | hf
    · exact hb
    · exact hfs f hf
  · exact fun ha f ↦ isEmpty_of_mem_difference h ha
  · exact fun f ↦ scale_of_mem_difference h

/-- Without what is at scale zero, nothing of a rectangle for two lanes is left there. -/
theorem difference_partition_two_lanes :
    ∃ fs, difference (Coverage.simplify { config := .withoutSearch })
        ⟨fullScaleRange, .compare (.text "lanes") .eq (.int 2)⟩ ⟨.point .zero, .always⟩ = .ok fs ∧
      fs.length ≤ 3 ∧ fs.countP (holds (.ofInt "lanes" 2) .zero) = 0 ∧
      ∀ f ∈ fs, f.scale.isEmpty = false := by
  have hrow : (Row.ofInt "lanes" 2).Conforms none := fun _ h ↦ by cases h
  have hs := (Coverage.keeps_simplify { config := .withoutSearch } hrow).keepsOn
  have hinside : Coverage.simplify { config := .withoutSearch }
      (.and (.compare (.text "lanes") .eq (.int 2)) (.not .always)) = .ok .never := by
    with_unfolding_all rfl
  obtain ⟨hreturns, hparts⟩ := difference_partition (Coverage.simplify { config := .withoutSearch })
    ⟨fullScaleRange, .compare (.text "lanes") .eq (.int 2)⟩ ⟨.point .zero, .always⟩
  obtain ⟨fs, hfs⟩ := hreturns .never hinside
  obtain ⟨hlength, hcount, hscales, -⟩ := hparts fs hfs
  refine ⟨fs, hfs, hlength, ?_, hscales (by decide +kernel)⟩
  rw [(hcount _ _ hs (Row.knows_lanes (.inl rfl)) trivial .zero).2]
  decide +kernel

/-! ## What fragments hand on -/

/-- A property that fragments hand on to what they are cut into, and to what they are joined to. -/
structure HandedOn (simplify : Simplifier) (Q : Fragment → Prop) : Prop where
  difference : ∀ {a b fs}, Q a → a.difference simplify b = .ok fs → ∀ f ∈ fs, Q f
  join : ∀ {f scale p q}, Q f → Q ⟨scale, p⟩ → simplify (.or f.predicate p) = .ok q → Q ⟨scale, q⟩

variable {Q : Fragment → Prop}

theorem handedOn_nonempty : HandedOn simplify fun f ↦ f.scale.isEmpty = false where
  difference ha h _ hf := isEmpty_of_mem_difference h ha hf
  join _ hscale _ := hscale

theorem HandedOn.differenceAll (hQ : HandedOn simplify Q) (hfs : ∀ f ∈ fs, Q f)
    (h : Fragment.differenceAll simplify fs b = .ok gs) : ∀ g ∈ gs, Q g := by
  obtain ⟨parts, hparts, rfl⟩ := map_eq_ok.1 h
  clear h
  induction mapM_eq_ok.1 hparts with
  | nil => exact fun g hg ↦ absurd hg List.not_mem_nil
  | @cons f part fs parts hpart htail ih =>
    rw [List.forall_mem_cons] at hfs
    intro g hg
    rcases List.mem_append.1 hg with hg | hg
    · exact hQ.difference hfs.1 hpart g hg
    · exact ih hfs.2 (mapM_eq_ok.2 htail) g hg

end Fragment

namespace Coverage

variable {c : Coverage} {Q : Fragment → Prop} {fs gs done pieces : List Fragment} {s : Selector}

open Fragment (HandedOn)

theorem forall_remainder (hQ : HandedOn simplify Q) (hfs : ∀ f ∈ fs, Q f)
    (h : remainder simplify fs gs = .ok pieces) : ∀ f ∈ pieces, Q f := by
  induction gs generalizing fs with
  | nil =>
    cases h
    exact hfs
  | cons g gs ih =>
    obtain ⟨rest, hrest, h⟩ := bind_eq_ok.1 h
    exact ih (hQ.differenceAll hfs hrest) h

theorem Places.forall_mem {scale : Interval} {p : Predicate} (h : Places simplify scale p fs gs)
    (hQ : HandedOn simplify Q) (hnew : Q ⟨scale, p⟩) (hfs : ∀ f ∈ fs, Q f) : ∀ g ∈ gs, Q g := by
  induction h with
  | last => exact List.forall_mem_singleton.2 hnew
  | join _ hq =>
    rw [List.forall_mem_cons] at hfs
    exact List.forall_mem_cons.2 ⟨hQ.join hfs.1 hnew hq, hfs.2⟩
  | behind _ ih =>
    rw [List.forall_mem_cons] at hfs
    exact List.forall_mem_cons.2 ⟨hfs.1, ih hfs.2⟩

theorem Gathers.forall_mem {cs : List Clause} (h : c.Gathers fs cs gs)
    (hQ : HandedOn c.simplify Q)
    (hcs : ∀ clause ∈ cs, clause.scales.isEmpty = false → Q ⟨clause.scales, clause.predicate⟩)
    (hfs : ∀ f ∈ fs, Q f) : ∀ g ∈ gs, Q g := by
  induction h with
  | nil => exact hfs
  | skip _ _ ih => exact ih (List.forall_mem_cons.1 hcs).2 hfs
  | place hne hplaced _ ih =>
    obtain ⟨hclause, hcs⟩ := List.forall_mem_cons.1 hcs
    exact ih hcs (hplaced.forall_mem hQ (hclause hne) hfs)

theorem forall_disjoint (hQ : HandedOn simplify Q) (hdone : ∀ d ∈ done, Q d)
    (hfs : ∀ f ∈ fs, Q f) (h : disjoint simplify done fs = .ok gs) : ∀ g ∈ gs, Q g := by
  induction fs generalizing done with
  | nil =>
    cases h
    exact hdone
  | cons f fs ih =>
    rw [List.forall_mem_cons] at hfs
    obtain ⟨rest, hrest, h⟩ := bind_eq_ok.1 h
    have hnew := forall_remainder hQ (by simpa using hfs.1) hrest
    exact ih (fun d hd ↦ (List.mem_append.1 hd).elim (hdone d) (hnew d)) hfs.2 h

/-- **What the rectangles of a selector hand on, its fragments have.** -/
theorem forall_toFragments (hQ : HandedOn c.simplify Q)
    (hs : ∀ clause ∈ s.leaves, clause.scales.isEmpty = false →
      Q ⟨clause.scales, clause.predicate⟩)
    (h : c.toFragments s = .ok fs) : ∀ f ∈ fs, Q f := by
  obtain ⟨cs, hcs, h⟩ := bind_eq_ok.1 h
  obtain ⟨rects, hrects, h⟩ := bind_eq_ok.1 h
  rw [clauses_eq hcs] at hrects
  exact forall_disjoint hQ (List.forall_mem_nil _)
    ((gathers_of_rectangles hrects).forall_mem hQ hs (List.forall_mem_nil _)) h

/-! ## The fragments of a selector -/

/-- **The fragments of a selector partition what it selects.**  A disjunction within a disjunction
is an error.  Otherwise, if there are fragments, none of them is empty, and of a row that conforms
to the schema just one holds at each scale at which a clause of the selector selects it, and none
elsewhere. -/
theorem toFragments_spec (c : Coverage) (s : Selector) :
    (∀ children inner, s = .anyOf children → .anyOf inner ∈ children →
      c.toFragments s = .error .nestedOr) ∧
    ∀ fs, c.toFragments s = .ok fs →
      (∀ f ∈ fs, f.scale.isEmpty = false) ∧
      ∀ row : Row, row.Conforms c.schema → s.JudgedBy row c.schema → ∀ x : Double,
        (∀ f ∈ fs, f.mask row.tests row.toFrame (.double x) = .ok [f.holds row x]) ∧
        fs.countP (Fragment.holds row x) = (s.selects row x).toNat := by
  refine ⟨fun _ _ ↦ toFragments_nested c, fun fs h ↦ ⟨?_, ?_⟩⟩
  · exact forall_toFragments Fragment.handedOn_nonempty (fun _ _ hscale ↦ hscale) h
  · intro row hrow hs x
    have htile := tile_toFragments (x := x) (c.keeps_simplify hrow) hs h
    exact ⟨fun f hf ↦ Fragment.mask_toFrame (htile.judged f hf).exists_holds, htile.depth⟩

/-- The fragments of the selector for two lanes hold of a row of two lanes. -/
theorem toFragments_spec_two_lanes :
    ∃ fs, toFragments { config := .withoutSearch } Rule.twoLanes.selector = .ok fs ∧
      fs.countP (Fragment.holds (.ofInt "lanes" 2) .zero) = 1 ∧
      toFragments {} nestedSelector = .error .nestedOr := by
  have hfs : ∃ fs, toFragments { config := .withoutSearch } Rule.twoLanes.selector = .ok fs :=
    ⟨_, rfl⟩
  obtain ⟨fs, hfs⟩ := hfs
  have hcount := (((toFragments_spec _ _).2 fs hfs).2 (.ofInt "lanes" 2) (fun _ h ↦ by cases h)
    (Rule.judgedBy_twoLanes (.inl rfl)) .zero).2
  refine ⟨fs, hfs, hcount.trans ?_, ?_⟩
  · decide +kernel
  · exact (toFragments_spec {} nestedSelector).1 _ _ rfl
      (List.mem_cons_of_mem _ List.mem_cons_self)

/-- A number that is no double is selected by no clause, and yet a fragment holds of it, as the
clauses were joined and simplified. -/
theorem toFragments_rounded :
    ∃ fs, toFragments { config := .withoutSearch } (.rounded fullScaleRange) = .ok fs ∧
      fs.countP (Fragment.holds (.ofInt "x" (2 ^ 53 + 1)) .zero) = 1 ∧
      (Selector.rounded fullScaleRange).selects (.ofInt "x" (2 ^ 53 + 1)) .zero = false := by
  have hscale : fullScaleRange.isEmpty = false := by decide +kernel
  have hno : (Selector.rounded fullScaleRange).selects (.ofInt "x" (2 ^ 53 + 1)) .zero = false := by
    decide +kernel
  obtain ⟨q, hq, hr⟩ := exists_toFragments_rounded hscale []
  refine ⟨_, hq, ?_, hno⟩
  rw [List.countP_singleton, Fragment.holds, Predicate.isTrueOf_of_holds hr]
  rfl

end Coverage

end RuleCoverage
