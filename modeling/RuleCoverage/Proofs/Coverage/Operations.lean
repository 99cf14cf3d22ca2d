import RuleCoverage.Proofs.Coverage.Selection

/-!
# What becomes of fragments

The operations on fragments go through a list and decide about one fragment after the other.  How
they decide is said here once, case by case, and what an operation keeps is proved by induction on
that.

* `Fragment.difference_cases` — what is left of a fragment without another one.
* `Coverage.Places`, `Coverage.Gathers` — the rectangles of clauses, those of equal scale ranges
  joined.
* `Coverage.Joins` — fragments in order, neighbours of equal scale ranges joined.
-/

set_option autoImplicit false

namespace RuleCoverage

variable {simplify : Simplifier}

/-- A difference is the fragment as it was, if the scale ranges do not meet.  Otherwise it is what
lies outside of the other scale range, and what is left on the scales that the two share. -/
theorem Fragment.difference_cases {a b : Fragment} {fs : List Fragment}
    (h : a.difference simplify b = .ok fs) :
    (a.scale.intersect? b.scale = none ∧ fs = [a]) ∨
      ∃ shared inside, a.scale.intersect? b.scale = some shared ∧
        simplify (.and a.predicate (.not b.predicate)) = .ok inside ∧
        fs = (a.scale.subtract b.scale).map (fun piece ↦ ⟨piece, a.predicate⟩) ++
          if inside == .never then [] else [⟨shared, inside⟩] := by
  rw [difference] at h
  split at h
  · rename_i hnone
    exact .inl ⟨hnone, (Except.ok.inj h).symm⟩
  · rename_i shared hshared
    obtain ⟨inside, hinside, h⟩ := bind_eq_ok.1 h
    exact .inr ⟨shared, inside, hshared, hinside, (Except.ok.inj h).symm⟩

namespace Coverage

variable {c : Coverage} {done fs gs : List Fragment}

/-! ## The rectangles of clauses -/

/-- How a rectangle is added to other ones: it is joined to the first one of an equal scale range,
and is the last one if there is none. -/
inductive Places (simplify : Simplifier) (scale : Interval) (p : Predicate) :
    List Fragment → List Fragment → Prop
  | last : Places simplify scale p [] [⟨scale, p⟩]
  | join {f : Fragment} {fs : List Fragment} {q : Predicate} (hscale : (f.scale == scale) = true)
      (hq : simplify (.or f.predicate p) = .ok q) :
      Places simplify scale p (f :: fs) (⟨scale, q⟩ :: fs)
  | behind {f : Fragment} {fs gs : List Fragment} (hrest : Places simplify scale p fs gs) :
      Places simplify scale p (f :: fs) (f :: gs)

theorem places_of_place {scale : Interval} {p : Predicate}
    (h : place simplify scale p fs = .ok gs) : Places simplify scale p fs gs := by
  induction fs generalizing gs with
  | nil =>
    cases h
    exact .last
  | cons f fs ih =>
    rw [place] at h
    split at h
    · rename_i hscale
      obtain ⟨q, hq, h⟩ := bind_eq_ok.1 h
      cases h
      exact .join hscale hq
    · obtain ⟨rest, hrest, h⟩ := bind_eq_ok.1 h
      cases h
      exact .behind (ih hrest)

/-- A clause that is bound keeps its predicate. -/
theorem bind_eq {clause : Clause} {schema : Option Schema} {strict : Bool} {p : Predicate}
    (h : clause.bind schema strict = .ok p) : p = clause.predicate := by
  rw [Clause.bind.eq_def] at h
  cases schema with
  | none => exact (Except.ok.inj h).symm
  | some schema =>
    cases strict with
    | false => exact (Except.ok.inj h).symm
    | true =>
      obtain ⟨_, -, h⟩ := bind_eq_ok.1 h
      exact (Except.ok.inj h).symm

/-- How the rectangles of clauses are gathered; a clause of an empty scale range has none. -/
inductive Gathers (c : Coverage) : List Fragment → List Clause → List Fragment → Prop
  | nil {fs : List Fragment} : Gathers c fs [] fs
  | skip {clause : Clause} {cs : List Clause} {fs gs : List Fragment}
      (hempty : clause.scales.isEmpty = true) (hrest : Gathers c fs cs gs) :
      Gathers c fs (clause :: cs) gs
  | place {clause : Clause} {cs : List Clause} {fs placed gs : List Fragment}
      (hne : clause.scales.isEmpty = false)
      (hplaced : Places c.simplify clause.scales clause.predicate fs placed)
      (hrest : Gathers c placed cs gs) : Gathers c fs (clause :: cs) gs

theorem gathers_of_rectangles {cs : List Clause} (h : c.rectangles fs cs = .ok gs) :
    c.Gathers fs cs gs := by
  induction cs generalizing fs with
  | nil =>
    cases h
    exact .nil
  | cons clause cs ih =>
    rw [rectangles] at h
    split at h
    · rename_i hempty
      exact .skip hempty (ih h)
    · rename_i hne
      obtain ⟨p, hp, h⟩ := bind_eq_ok.1 h
      obtain ⟨placed, hplaced, h⟩ := bind_eq_ok.1 h
      rw [bind_eq hp] at hplaced
      exact .place (Bool.eq_false_iff.2 hne) (places_of_place hplaced) (ih h)

/-- A clause that has scales is one rectangle. -/
theorem toFragments_clause {clause : Clause} {p : Predicate} (hne : clause.scales.isEmpty = false)
    (hp : clause.bind c.schema c.config.isStrict = .ok p) :
    c.toFragments (.clause clause) = .ok [⟨clause.scales, p⟩] := by
  have hrectangle : c.rectangles [] [clause] = .ok [⟨clause.scales, p⟩] := by
    rw [rectangles]
    refine (if_neg (Bool.eq_false_iff.1 hne)).trans ?_
    rw [hp]
    rfl
  exact bind_eq_ok.2 ⟨[clause], rfl, bind_eq_ok.2 ⟨_, hrectangle, rfl⟩⟩

/-- Nothing is taken away from a fragment that does not meet the other one. -/
theorem remainder_of_apart {f g : Fragment} (h : f.scale.intersect? g.scale = none) :
    remainder simplify [f] [g] = .ok [f] := by
  have hdifference : f.difference simplify g = .ok [f] := by rw [Fragment.difference, h]
  refine bind_eq_ok.2 ⟨[f], ?_, rfl⟩
  rw [Fragment.differenceAll, List.mapM_cons, hdifference]
  rfl

/-! ## Joining neighbours -/

/-- How neighbours of equal scale ranges are joined.  The ones that are done stand in reverse. -/
inductive Joins (simplify : Simplifier) :
    List Fragment → List Fragment → List Fragment → Prop
  | nil {done : List Fragment} : Joins simplify done [] done.reverse
  | join {last f : Fragment} {before fs gs : List Fragment} {p : Predicate}
      (hscale : (last.scale == f.scale) = true)
      (hp : simplify (.or f.predicate last.predicate) = .ok p)
      (hrest : Joins simplify (⟨last.scale, p⟩ :: before) fs gs) :
      Joins simplify (last :: before) (f :: fs) gs
  | next {f : Fragment} {done fs gs : List Fragment}
      (hne : ∀ last ∈ done.head?, ¬ (last.scale == f.scale) = true)
      (hrest : Joins simplify (f :: done) fs gs) : Joins simplify done (f :: fs) gs

theorem joins_of_joinEqual (h : joinEqual simplify done fs = .ok gs) :
    Joins simplify done fs gs := by
  induction fs generalizing done with
  | nil =>
    cases h
    exact .nil
  | cons f fs ih =>
    rw [joinEqual.eq_def] at h
    dsimp only at h
    split at h
    · rename_i last before
      split at h
      · rename_i hscale
        obtain ⟨p, hp, h⟩ := bind_eq_ok.1 h
        exact .join hscale hp (ih h)
      · rename_i hne
        refine .next ?_ (ih h)
        rintro _ ⟨⟩
        exact hne
    · exact .next nofun (ih h)

end Coverage

end RuleCoverage
