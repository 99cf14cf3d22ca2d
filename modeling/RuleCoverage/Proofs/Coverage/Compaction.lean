import RuleCoverage.Proofs.Coverage.Adding
import RuleCoverage.Proofs.Interval.Keys

/-!
# Fragments in order

Fragments are brought into order by the keys of their scale ranges, and those of equal ranges are
joined.  Only neighbours are compared, but after the sort equal ranges are neighbours, since two
ranges have the same key only if they are equal (`Interval.beq_iff_sortKey`).  So the keys strictly
increase afterwards, and no range is lost or new (`Coverage.compact_spec`); ranges that only touch
stay apart.
-/

set_option autoImplicit false

namespace RuleCoverage

/-! ## Joining neighbours -/

namespace Coverage

variable {c : Coverage} {simplify : Simplifier} {fs gs done : List Fragment}

/-- The keys of the scale ranges strictly increase. -/
def StrictlyOrdered (fs : List Fragment) : Prop :=
  fs.Pairwise fun f g ↦ f.scale.sortKey < g.scale.sortKey

/-- Joining neighbours of a sorted list makes the keys strictly increase: a fragment either has the
range of the one before it and is joined to it, or comes later. -/
theorem Joins.strictlyOrdered (h : Joins simplify done fs gs)
    (hdone : StrictlyOrdered done.reverse)
    (hfs : fs.Pairwise fun f g ↦ f.scale.sortKey ≤ g.scale.sortKey)
    (hle : ∀ d ∈ done, ∀ f ∈ fs, d.scale.sortKey ≤ f.scale.sortKey) : StrictlyOrdered gs := by
  induction h with
  | nil => exact hdone
  | join _ _ _ ih =>
    -- the joined fragment has the range of the last one
    obtain ⟨hlast, hbefore⟩ := List.forall_mem_cons.1 hle
    refine ih ?_ (List.pairwise_cons.1 hfs).2 ?_
    · rw [StrictlyOrdered, List.pairwise_reverse, List.pairwise_cons] at hdone ⊢
      exact hdone
    · refine List.forall_mem_cons.2 ⟨fun g hg ↦ ?_, fun d hd g hg ↦ ?_⟩
      · exact hlast g (List.mem_cons_of_mem _ hg)
      · exact hbefore d hd g (List.mem_cons_of_mem _ hg)
  | @next f done _ _ hne _ ih =>
    obtain ⟨hf, hfs⟩ := List.pairwise_cons.1 hfs
    have hlt : ∀ d ∈ done, d.scale.sortKey < f.scale.sortKey := by
      cases done with
      | nil => exact List.forall_mem_nil _
      | cons last before =>
        have hlast : last.scale.sortKey < f.scale.sortKey :=
          lt_of_le_of_ne (hle last List.mem_cons_self f List.mem_cons_self)
            fun heq ↦ hne last rfl (Interval.beq_iff_sortKey.2 heq)
        rw [StrictlyOrdered, List.pairwise_reverse, List.pairwise_cons] at hdone
        exact List.forall_mem_cons.2 ⟨hlast, fun d hd ↦ (hdone.1 d hd).trans hlast⟩
    refine ih ?_ hfs (List.forall_mem_cons.2 ⟨hf, fun d hd g hg ↦ ?_⟩)
    · rw [StrictlyOrdered, List.pairwise_reverse] at hdone ⊢
      exact List.pairwise_cons.2 ⟨hlt, hdone⟩
    · exact hle d hd g (List.mem_cons_of_mem _ hg)

/-- Joining neighbours of equal scale ranges leaves the scale ranges that there are. -/
theorem Joins.any_scale (h : Joins simplify done fs gs) (iv : Interval) :
    gs.any (·.scale == iv) = (done.any (·.scale == iv) || fs.any (·.scale == iv)) := by
  induction h with
  | nil => rw [List.any_reverse, List.any_nil, Bool.or_false]
  | @join last f _ _ _ _ hscale _ _ ih =>
    rw [ih, List.any_cons, List.any_cons, List.any_cons, Interval.beq_congr_left hscale]
    cases f.scale == iv <;> simp
  | @next f _ _ _ _ _ ih =>
    rw [ih, List.any_cons, List.any_cons]
    cases f.scale == iv <;> simp

/-- Fragments can be joined if their predicates are of a class of which alternatives can be
simplified, and those that come out are of the class. -/
theorem exists_joinEqual {P : Predicate → Prop}
    (hjoin : ∀ p q, P p → P q → ∃ r, simplify (.or p q) = .ok r ∧ P r)
    (hdone : ∀ f ∈ done, P f.predicate) (hfs : ∀ f ∈ fs, P f.predicate) :
    ∃ gs, joinEqual simplify done fs = .ok gs ∧ ∀ g ∈ gs, P g.predicate := by
  induction fs generalizing done with
  | nil => exact ⟨_, rfl, fun g hg ↦ hdone g (List.mem_reverse.1 hg)⟩
  | cons f fs ih =>
    obtain ⟨hf, hfs⟩ := List.forall_mem_cons.1 hfs
    rw [joinEqual.eq_def]
    dsimp only
    split
    · rename_i last before
      obtain ⟨hlast, hbefore⟩ := List.forall_mem_cons.1 hdone
      split
      · obtain ⟨p, hp, hP⟩ := hjoin _ _ hf hlast
        rw [hp]
        exact ih (List.forall_mem_cons.2 ⟨hP, hbefore⟩) hfs
      · exact ih (List.forall_mem_cons.2 ⟨hf, hdone⟩) hfs
    · exact ih (List.forall_mem_singleton.2 hf) hfs

/-- So can fragments that have yet to be brought into order. -/
theorem exists_compact {P : Predicate → Prop}
    (hjoin : ∀ p q, P p → P q → ∃ r, c.simplify (.or p q) = .ok r ∧ P r)
    (hfs : ∀ f ∈ fs, P f.predicate) : ∃ gs, c.compact fs = .ok gs ∧ ∀ g ∈ gs, P g.predicate := by
  have hperm := List.mergeSort_perm fs fun f g ↦ f.scale.precedes g.scale
  exact exists_joinEqual hjoin (List.forall_mem_nil _) fun f hf ↦ hfs f (hperm.mem_iff.1 hf)

/-! ## Bringing fragments into order -/

theorem strictlyOrdered_compact (h : c.compact fs = .ok gs) : StrictlyOrdered gs := by
  have hnil : StrictlyOrdered ([] : List Fragment).reverse := List.Pairwise.nil
  refine (joins_of_joinEqual h).strictlyOrdered hnil ?_ (List.forall_mem_nil _)
  refine List.Pairwise.imp Interval.precedes_iff_sortKey.1 (List.pairwise_mergeSort ?_ ?_ fs)
  · exact fun f g k ↦ Interval.precedes_trans f.scale g.scale k.scale
  · exact fun f g ↦ Interval.precedes_total f.scale g.scale

theorem any_scale_compact (iv : Interval) (h : c.compact fs = .ok gs) :
    gs.any (·.scale == iv) = fs.any (·.scale == iv) := by
  rw [(joins_of_joinEqual h).any_scale iv, List.any_nil, Bool.false_or]
  exact (List.mergeSort_perm fs _).any_eq

variable {π : Type}

/-- **Bringing fragments into order joins those of equal scale ranges and no others.**  The keys
strictly increase, the ranges are those that were given, and where any of the given fragments holds,
one of the new ones does, and not more of them than before.  So a coverage that a rule has added to
has a fragment for each of its ranges, in order. -/
theorem compact_spec (c : Coverage) (fs : List Fragment) :
    (∀ P : Predicate → Prop, (∀ f ∈ fs, P f.predicate) →
      (∀ p q, P p → P q → ∃ r, c.simplify (.or p q) = .ok r ∧ P r) →
      ∃ gs, c.compact fs = .ok gs) ∧
    (∀ gs, c.compact fs = .ok gs →
      gs.Pairwise (fun f g ↦ f.scale.sortKey < g.scale.sortKey ∧ (f.scale == g.scale) = false) ∧
      (∀ iv, gs.any (·.scale == iv) = fs.any (·.scale == iv)) ∧
      ∀ (row : Row) (P : Predicate → Prop), Simplifier.KeepsOn c.simplify row P →
        (∀ f ∈ fs, P f.predicate) → ∀ x : Double,
          (∀ f ∈ fs ++ gs, f.mask row.tests row.toFrame (.double x) = .ok [f.holds row x]) ∧
          gs.any (Fragment.holds row x) = fs.any (Fragment.holds row x) ∧
          gs.countP (Fragment.holds row x) ≤ fs.countP (Fragment.holds row x)) ∧
    ∀ (r : Rule π) answer next, c.fragments ≠ [] → c.addRule r = .ok (answer, next) →
      answer ≠ [] →
      next.fragments.Pairwise fun f g ↦
        f.scale.sortKey < g.scale.sortKey ∧ (f.scale == g.scale) = false := by
  have hne : ∀ {gs : List Fragment}, StrictlyOrdered gs → gs.Pairwise fun f g ↦
      f.scale.sortKey < g.scale.sortKey ∧ (f.scale == g.scale) = false := fun hgs ↦ hgs.imp
    fun hlt ↦ ⟨hlt, Bool.eq_false_iff.2 fun heq ↦ hlt.ne (Interval.beq_iff_sortKey.1 heq)⟩
  refine ⟨?_, fun gs h ↦ ⟨hne (strictlyOrdered_compact h), fun iv ↦ any_scale_compact iv h, ?_⟩, ?_⟩
  · intro P hfs hjoin
    obtain ⟨gs, hgs, -⟩ := exists_compact hjoin hfs
    exact ⟨gs, hgs⟩
  · intro row P hs hfs x
    obtain ⟨hgs, hle, hzero⟩ := depth_compact (x := x) hs hfs h
    refine ⟨fun f hf ↦ Fragment.mask_toFrame (hs.exists_holds ?_), ?_, hle⟩
    · exact (List.mem_append.1 hf).elim (hfs f) (hgs f)
    · rw [Fragment.any_holds_eq, Fragment.any_holds_eq]
      exact decide_eq_decide.2
        ⟨fun h0 hz ↦ h0 (Nat.le_zero.1 (hz ▸ hle)), fun h0 hz ↦ h0 (hzero hz)⟩
  · intro r answer next hfragments hadd hanswer
    obtain ⟨_, -, ⟨hempty, -⟩ | ⟨left, -, ⟨-, hnone, -⟩ | ⟨all, hall, -, rfl⟩⟩⟩ :=
      addRule_cases hadd
    · exact absurd hempty hfragments
    · exact absurd hnone hanswer
    · exact hne (strictlyOrdered_compact hall)

/-- What has claimed all features at scale zero. -/
def scaleZero : Coverage := { config := .withoutSearch, fragments := [⟨.point .zero, .always⟩] }

/-- The rule for two lanes is left over at the other scales. -/
theorem exists_addRule_scaleZero : ∃ answer next,
    scaleZero.addRule Rule.twoLanes = .ok (answer, next) ∧ answer ≠ [] := by
  have hleft : remainder scaleZero.simplify
      [⟨fullScaleRange, .compare (.text "lanes") .eq (.int 2)⟩] scaleZero.fragments =
        .ok [⟨{ fullScaleRange with lowIncluded := false },
          .compare (.text "lanes") .eq (.int 2)⟩] := by with_unfolding_all rfl
  exact ⟨_, _, addRule_of_pair rfl rfl hleft rfl rfl, List.cons_ne_nil _ _⟩

/-- Two fragments for all features at scale zero become one, and the rule for two lanes is put after
it. -/
theorem compact_spec_scaleZero :
    (∃ gs, scaleZero.compact (scaleZero.fragments ++ scaleZero.fragments) = .ok gs ∧
      gs.countP (Fragment.holds (.ofInt "lanes" 2) .zero) ≤ 2 ∧
      gs.any (Fragment.holds (.ofInt "lanes" 2) .zero) = true) ∧
    ∃ answer next, scaleZero.addRule Rule.twoLanes = .ok (answer, next) ∧
      next.fragments.Pairwise fun f g ↦
        f.scale.sortKey < g.scale.sortKey ∧ (f.scale == g.scale) = false := by
  obtain ⟨hreturns, hcompact, hadded⟩ := @compact_spec String scaleZero
    (scaleZero.fragments ++ scaleZero.fragments)
  have hfs : ∀ f ∈ scaleZero.fragments ++ scaleZero.fragments, f.predicate = .always := by
    simp [scaleZero]
  have hjoin : scaleZero.simplify (.or .always .always) = .ok .always := by with_unfolding_all rfl
  refine ⟨?_, ?_⟩
  · obtain ⟨gs, hgs⟩ := hreturns (· = .always) hfs
      fun p q hp hq ↦ ⟨.always, by rw [hp, hq, hjoin], rfl⟩
    have hrow : (Row.ofInt "lanes" 2).Conforms scaleZero.schema := fun _ h ↦ by cases h
    have hs := (keeps_simplify scaleZero hrow).keepsOn
    obtain ⟨-, hany, hcount⟩ := (hcompact gs hgs).2.2 _ _ hs (fun f hf ↦ hfs f hf ▸ trivial) .zero
    exact ⟨gs, hgs, hcount, hany⟩
  · obtain ⟨answer, next, hadd, hanswer⟩ := exists_addRule_scaleZero
    exact ⟨answer, next, hadd, hadded _ _ _ (List.cons_ne_nil _ _) hadd hanswer⟩

end Coverage

end RuleCoverage
