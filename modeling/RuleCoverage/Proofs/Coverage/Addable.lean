import RuleCoverage.Coverage.Run
import RuleCoverage.Proofs.Coverage.Compaction
import RuleCoverage.Proofs.Coverage.Cutting
import RuleCoverage.Proofs.NormalForm.Totality

/-!
# Rules that can always be added

Adding a rule fails if its selector has a disjunction within a disjunction, if the schema forbids
what a clause compares, or if a number is too large for a double.  A rule of which none of this is
so (`Rule.Addable`) is added to whatever rules of this kind have made of a coverage: fragments are
cut and joined by simplification, which returns where atoms can be read and writes none that cannot.

## What is here

* `Simplifier.Returns` — a simplification that returns for what fragments are cut and joined to.
* `Coverage.exists_addRule` — adding such a rule returns.
* `Coverage.isOk_run` — so a run of such rules and of resets never fails.
-/

set_option autoImplicit false

namespace RuleCoverage

variable {π : Type} {simplify : Simplifier} {P : Predicate → Prop}

/-- The simplification returns for what a predicate of a class leaves of another one, and for two of
them as alternatives, and what it gives is in the class. -/
structure Simplifier.Returns (simplify : Simplifier) (P : Predicate → Prop) : Prop where
  leftover : ∀ p q, P p → P q → ∃ r, simplify (.and p (.not q)) = .ok r ∧ P r
  alternative : ∀ p q, P p → P q → ∃ r, simplify (.or p q) = .ok r ∧ P r

/-- The simplification of a coverage returns where atoms can be read. -/
theorem Coverage.returns_simplify (c : Coverage) :
    Simplifier.Returns c.simplify fun p ↦ p.AllAtoms (Predicate.Readable c.schema) := by
  have hreturns : ∀ p : Predicate, p.AllAtoms (Predicate.Readable c.schema) →
      ∃ r, c.simplify p = .ok r ∧ r.AllAtoms (Predicate.Readable c.schema) := by
    intro p hp
    obtain ⟨r, hr⟩ := Predicate.exists_simplify c.config.effort hp
    exact ⟨r, hr, Predicate.readable_simplify hp hr⟩
  exact ⟨fun p q hp hq ↦ hreturns _ ⟨hp, hq⟩, fun p q hp hq ↦ hreturns _ ⟨hp, hq⟩⟩

/-! ## Cutting and joining -/

namespace Fragment

variable {a b : Fragment} {fs gs : List Fragment}

theorem exists_difference_of (hs : simplify.Returns P) (ha : P a.predicate) (hb : P b.predicate) :
    ∃ fs, a.difference simplify b = .ok fs ∧ ∀ f ∈ fs, P f.predicate := by
  obtain ⟨q, hq, hP⟩ := hs.leftover _ _ ha hb
  obtain ⟨fs, hfs⟩ := exists_difference hq
  refine ⟨fs, hfs, fun f hf ↦ ?_⟩
  rcases mem_difference hfs hf with ⟨rfl, -⟩ | ⟨hpredicate, -⟩ | ⟨hinside, -⟩
  · exact ha
  · exact hpredicate ▸ ha
  · cases hq.symm.trans hinside
    exact hP

theorem exists_differenceAll (hs : simplify.Returns P) (hfs : ∀ f ∈ fs, P f.predicate)
    (hb : P b.predicate) :
    ∃ gs, differenceAll simplify fs b = .ok gs ∧ ∀ g ∈ gs, P g.predicate := by
  induction fs with
  | nil => exact ⟨[], rfl, List.forall_mem_nil _⟩
  | cons f fs ih =>
    obtain ⟨hf, hfs⟩ := List.forall_mem_cons.1 hfs
    obtain ⟨part, hpart, hP⟩ := exists_difference_of hs hf hb
    obtain ⟨rest, hrest, hPs⟩ := ih hfs
    obtain ⟨parts, hparts, rfl⟩ := map_eq_ok.1 hrest
    refine ⟨part ++ parts.flatten, map_eq_ok.2 ⟨part :: parts, ?_, rfl⟩, ?_⟩
    · exact mapM_eq_ok.2 (.cons hpart (mapM_eq_ok.1 hparts))
    · exact fun g hg ↦ (List.mem_append.1 hg).elim (hP g) (hPs g)

end Fragment

namespace Coverage

variable {c : Coverage} {fs gs done : List Fragment}

theorem exists_remainder (hs : simplify.Returns P) (hfs : ∀ f ∈ fs, P f.predicate)
    (hgs : ∀ g ∈ gs, P g.predicate) :
    ∃ pieces, remainder simplify fs gs = .ok pieces ∧ ∀ f ∈ pieces, P f.predicate := by
  induction gs generalizing fs with
  | nil => exact ⟨fs, rfl, hfs⟩
  | cons g gs ih =>
    obtain ⟨hg, hgs⟩ := List.forall_mem_cons.1 hgs
    obtain ⟨rest, hrest, hP⟩ := Fragment.exists_differenceAll hs hfs hg
    obtain ⟨pieces, hpieces, hPs⟩ := ih hP hgs
    exact ⟨pieces, bind_eq_ok.2 ⟨rest, hrest, hpieces⟩, hPs⟩

theorem exists_place (hs : simplify.Returns P) (scale : Interval) {p : Predicate} (hp : P p)
    (hfs : ∀ f ∈ fs, P f.predicate) :
    ∃ gs, place simplify scale p fs = .ok gs ∧ ∀ g ∈ gs, P g.predicate := by
  induction fs with
  | nil => exact ⟨_, rfl, List.forall_mem_singleton.2 hp⟩
  | cons f fs ih =>
    obtain ⟨hf, hfs⟩ := List.forall_mem_cons.1 hfs
    rw [place]
    split
    · obtain ⟨q, hq, hP⟩ := hs.alternative _ _ hf hp
      exact ⟨_, bind_eq_ok.2 ⟨q, hq, rfl⟩, List.forall_mem_cons.2 ⟨hP, hfs⟩⟩
    · obtain ⟨gs, hgs, hP⟩ := ih hfs
      exact ⟨_, bind_eq_ok.2 ⟨gs, hgs, rfl⟩, List.forall_mem_cons.2 ⟨hf, hP⟩⟩

theorem exists_rectangles {cs : List Clause} (hs : Simplifier.Returns c.simplify P)
    (hbound : ∀ clause ∈ cs, ∃ p, clause.bind c.schema c.config.isStrict = .ok p)
    (hcs : ∀ clause ∈ cs, P clause.predicate) (hfs : ∀ f ∈ fs, P f.predicate) :
    ∃ gs, c.rectangles fs cs = .ok gs ∧ ∀ g ∈ gs, P g.predicate := by
  induction cs generalizing fs with
  | nil => exact ⟨fs, rfl, hfs⟩
  | cons clause cs ih =>
    obtain ⟨⟨p, hp⟩, hbound⟩ := List.forall_mem_cons.1 hbound
    obtain ⟨hclause, hcs⟩ := List.forall_mem_cons.1 hcs
    rw [rectangles]
    split
    · exact ih hbound hcs hfs
    · obtain ⟨placed, hplaced, hP⟩ := exists_place hs (clause.scale?.getD fullScaleRange)
        (bind_eq hp ▸ hclause) hfs
      obtain ⟨gs, hgs, hPs⟩ := ih hbound hcs hP
      exact ⟨gs, bind_eq_ok.2 ⟨p, hp, bind_eq_ok.2 ⟨placed, hplaced, hgs⟩⟩, hPs⟩

theorem exists_disjoint (hs : simplify.Returns P) (hdone : ∀ d ∈ done, P d.predicate)
    (hfs : ∀ f ∈ fs, P f.predicate) :
    ∃ gs, disjoint simplify done fs = .ok gs ∧ ∀ g ∈ gs, P g.predicate := by
  induction fs generalizing done with
  | nil => exact ⟨done, rfl, hdone⟩
  | cons f fs ih =>
    obtain ⟨hf, hfs⟩ := List.forall_mem_cons.1 hfs
    obtain ⟨rest, hrest, hP⟩ := exists_remainder hs (List.forall_mem_singleton.2 hf) hdone
    obtain ⟨gs, hgs, hPs⟩ := ih (fun d hd ↦ (List.mem_append.1 hd).elim (hdone d) (hP d)) hfs
    exact ⟨gs, bind_eq_ok.2 ⟨rest, hrest, hgs⟩, hPs⟩

theorem exists_toFragments {s : Selector} (hs : Simplifier.Returns c.simplify P)
    (hflat : ∃ cs, clauses s = .ok cs)
    (hbound : ∀ clause ∈ s.leaves, ∃ p, clause.bind c.schema c.config.isStrict = .ok p)
    (hcs : ∀ clause ∈ s.leaves, P clause.predicate) :
    ∃ fs, c.toFragments s = .ok fs ∧ ∀ f ∈ fs, P f.predicate := by
  obtain ⟨cs, hflat⟩ := hflat
  rw [← clauses_eq hflat] at hbound hcs
  obtain ⟨rects, hrects, hP⟩ := exists_rectangles hs hbound hcs (List.forall_mem_nil _)
  obtain ⟨fs, hfs, hPs⟩ := exists_disjoint hs (List.forall_mem_nil _) hP
  exact ⟨fs, bind_eq_ok.2 ⟨cs, hflat, bind_eq_ok.2 ⟨rects, hrects, hfs⟩⟩, hPs⟩

end Coverage

/-! ## Adding rules -/

/-- The selector is a clause or a disjunction of clauses, each of which may be read against the
schema, and has atoms that can be read. -/
structure Rule.Addable (schema? : Option Schema) (config : Config) (r : Rule π) : Prop where
  flat : ∃ cs, Coverage.clauses r.selector = .ok cs
  bound : ∀ clause ∈ r.selector.leaves, ∃ p, clause.bind schema? config.isStrict = .ok p
  readable : ∀ clause ∈ r.selector.leaves, clause.predicate.AllAtoms (Predicate.Readable schema?)

/-- Without a schema a rule of one clause can be added if its atoms can be read. -/
theorem Rule.addable_of_clause {config : Config} {r : Rule π} {clause : Clause}
    (hr : r.selector = .clause clause)
    (hp : clause.predicate.AllAtoms (Predicate.Readable none)) : r.Addable none config where
  flat := ⟨_, by rw [hr]; rfl⟩
  bound d hd := ⟨d.predicate, rfl⟩
  readable d hd := by
    rw [hr] at hd
    rwa [List.mem_singleton.1 hd]

theorem Rule.addable_twoLanes (config : Config) : twoLanes.Addable none config := by
  refine addable_of_clause rfl ⟨⟨⟨_, rfl⟩, _, rfl⟩, fun _ _ s hs n hn ↦ ?_⟩
  cases List.mem_singleton.1 hs
  cases hn
  rw [← Option.isSome_iff_exists]
  decide +kernel

namespace Coverage

variable {c : Coverage} {schema? : Option Schema} {config : Config} {r : Rule π} {step : Step π}
  {steps : List (Step π)}

/-- The coverage has the schema and the settings, and the atoms of its fragments can be read. -/
structure IsReadable (c : Coverage) (schema? : Option Schema) (config : Config) : Prop where
  schema : c.schema = schema?
  config : c.config = config
  readable : ∀ f ∈ c.fragments, f.predicate.AllAtoms (Predicate.Readable schema?)

/-- **A rule that can be read is added to a coverage that can be read**, and leaves such a one. -/
theorem exists_addRule (hc : c.IsReadable schema? config) (hr : r.Addable schema? config) :
    ∃ pieces next, c.addRule r = .ok (pieces, next) ∧ next.IsReadable schema? config := by
  obtain ⟨rfl, rfl, hfragments⟩ := hc
  have hs := c.returns_simplify
  obtain ⟨incoming, hincoming, hnew⟩ := exists_toFragments hs hr.flat hr.bound hr.readable
  obtain ⟨left, hleft, hrest⟩ := exists_remainder hs hnew hfragments
  obtain ⟨fs, hfs, hall⟩ := exists_compact hs.alternative
    fun f hf ↦ (List.mem_append.1 hf).elim (hfragments f) (hrest f)
  rw [addRule, hincoming, ok_bind]
  split
  · exact ⟨_, _, rfl, rfl, rfl, hnew⟩
  rw [hleft, ok_bind]
  split
  · exact ⟨_, _, rfl, rfl, rfl, hfragments⟩
  rw [hfs]
  exact ⟨_, _, rfl, rfl, rfl, hall⟩

/-- A step that adds no other rules does not fail. -/
theorem IsReadable.take (hc : c.IsReadable schema? config)
    (hstep : ∀ r, step = .add r → r.Addable schema? config) :
    (c.take step).1.isOk = true ∧ (c.take step).2.IsReadable schema? config := by
  cases step with
  | reset => exact ⟨rfl, hc.schema, hc.config, List.forall_mem_nil _⟩
  | add r =>
    obtain ⟨pieces, next, hadd, hnext⟩ := exists_addRule hc (hstep r rfl)
    rw [take_add_of_ok hadd]
    exact ⟨rfl, hnext⟩

theorem IsReadable.after (hc : c.IsReadable schema? config)
    (hsteps : ∀ r, .add r ∈ steps → r.Addable schema? config) :
    (c.after steps).IsReadable schema? config := by
  induction steps generalizing c with
  | nil => exact hc
  | cons step steps ih =>
    have hnext := (hc.take fun r hr ↦ hsteps r (hr ▸ List.mem_cons_self)).2
    exact ih hnext fun r hr ↦ hsteps r (List.mem_cons_of_mem _ hr)

/-- **A run of such steps never fails.** -/
theorem isOk_run (hc : c.IsReadable schema? config)
    (hsteps : ∀ r, .add r ∈ steps → r.Addable schema? config) :
    ∀ answer ∈ c.run steps, answer.1.isOk = true := by
  induction steps generalizing c with
  | nil => exact List.forall_mem_nil _
  | cons step steps ih =>
    obtain ⟨hok, hnext⟩ := hc.take fun r hr ↦ hsteps r (hr ▸ List.mem_cons_self)
    exact List.forall_mem_cons.2 ⟨hok, ih hnext fun r hr ↦ hsteps r (List.mem_cons_of_mem _ hr)⟩

end Coverage

end RuleCoverage
