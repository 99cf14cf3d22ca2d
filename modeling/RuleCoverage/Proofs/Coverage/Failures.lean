import RuleCoverage.Proofs.Coverage.Addable

/-!
# Steps that fail

A coverage that changes in place could be left half changed by a step that fails: its rule may be
cut into fragments and cut down by the fragments that are there, and only then fail, when the
coverage is brought into order.

`Coverage.addInPlace` is such a coverage.  It reads and writes the coverage as it goes along, and
what it has written before an error stays.  It writes once, after all that can fail, so it takes the
steps that `Coverage.take` takes (`Coverage.outcome_stepInPlace`).

## What is here

* `Coverage.addInPlace`, `Coverage.runInPlace` — adding a rule, and taking steps, in place.
* `Coverage.succeeding` — the steps of a run that do not fail.
* `Coverage.logInPlace_succeeding` — a run goes on as if the steps that fail had not been taken.
-/

set_option autoImplicit false

namespace RuleCoverage

namespace Coverage

variable {π : Type}

/-! ## Changing in place -/

/-- A computation on a coverage that is kept in place: what has been written when an error comes up
is not taken back. -/
abbrev InPlace := ExceptT Error (StateM Coverage)

/-- The outcome of a computation and the coverage that it leaves. -/
def InPlace.outcome {α : Type} (x : InPlace α) (c : Coverage) : Except Error α × Coverage :=
  (x.run.run c).run

/-- Claims the region of a rule, as `Coverage.addRule` does. -/
def addInPlace (r : Rule π) : InPlace (List (Rule π)) := do
  let c ← get
  let incoming ← c.toFragments r.selector
  if c.isEmpty then
    set { c with fragments := incoming }
    return [r]
  let remaining ← remainder c.simplify incoming c.fragments
  if remaining.isEmpty then return []
  let fragments ← c.compact (c.fragments ++ remaining)
  set { c with fragments := fragments }
  return remaining.map fun f ↦ r.derive f.toSelector

/-- Takes a step. -/
def stepInPlace : Step π → InPlace (List (Rule π))
  | .add r => addInPlace r
  | .reset => do
    modify reset
    return []

/-- Takes steps one after another, whether they fail or not.  The result is the outcome of each and
the coverage that it left. -/
def runInPlace : List (Step π) → StateM Coverage (List (Except Error (List (Rule π)) × Coverage))
  | [] => return []
  | step :: rest => do
    let answer ← (stepInPlace step).run
    let c ← get
    return (answer, c) :: (← runInPlace rest)

variable {c next : Coverage} {r : Rule π} {step : Step π} {steps : List (Step π)}

namespace InPlace

variable {α β : Type}

/-- The rest of a computation goes on with the coverage that the first part leaves, and is left out
after an error. -/
theorem outcome_bind (x : InPlace α) (f : α → InPlace β) (c : Coverage) :
    (x >>= f).outcome c = match x.outcome c with
      | (.ok a, next) => (f a).outcome next
      | (.error e, next) => (.error e, next) := by
  change (match x.outcome c with
    | (answer, next) => StateT.run (m := Id) (ExceptT.bindCont f answer) next) = _
  generalize x.outcome c = result
  obtain ⟨_ | _, _⟩ := result <;> rfl

@[simp] theorem outcome_get (c : Coverage) : outcome (get : InPlace Coverage) c = (.ok c, c) := rfl

@[simp] theorem outcome_set (c next : Coverage) :
    outcome (set next : InPlace PUnit) c = (.ok ⟨⟩, next) := rfl

@[simp] theorem outcome_pure (a : α) (c : Coverage) : outcome (pure a) c = (.ok a, c) := rfl

@[simp] theorem outcome_lift (x : Except Error α) (c : Coverage) :
    outcome (liftM x) c = (x, c) := rfl

end InPlace

/-- **Adding a rule in place either succeeds or leaves no trace**: every write comes after all that
can fail. -/
theorem outcome_addInPlace (r : Rule π) (c : Coverage) :
    (addInPlace r).outcome c = c.take (.add r) := by
  simp only [addInPlace, InPlace.outcome_bind, InPlace.outcome_get, InPlace.outcome_lift]
  rw [take, addRule]
  cases c.toFragments r.selector with
  | error e => rfl
  | ok incoming =>
    dsimp only
    rw [ok_bind]
    split
    · rfl
    simp only [InPlace.outcome_bind, InPlace.outcome_lift]
    cases remainder c.simplify incoming c.fragments with
    | error e => rfl
    | ok remaining =>
      dsimp only
      rw [ok_bind]
      split
      · rfl
      simp only [InPlace.outcome_bind, InPlace.outcome_lift]
      cases c.compact (c.fragments ++ remaining) <;> rfl

/-- A step in place leaves the coverage that the step gives. -/
theorem outcome_stepInPlace (step : Step π) (c : Coverage) :
    (stepInPlace step).outcome c = c.take step := by
  cases step with
  | add r => exact outcome_addInPlace r c
  | reset => rfl

/-! ## Runs -/

/-- The steps that do not fail when all of them are taken one after another. -/
def succeeding (c : Coverage) : List (Step π) → List (Step π)
  | [] => []
  | step :: rest =>
    let (answer, next) := (stepInPlace step).outcome c
    if answer.isOk then step :: next.succeeding rest else next.succeeding rest

/-- The outcomes of steps that are taken in place, with the coverages that they left, and the
coverage at the end. -/
def logInPlace (c : Coverage) (steps : List (Step π)) :
    List (Except Error (List (Rule π)) × Coverage) × Coverage :=
  ((runInPlace steps).run c).run

/-- A run in place is a run. -/
theorem logInPlace_eq (c : Coverage) (steps : List (Step π)) :
    c.logInPlace steps = (c.run steps, c.after steps) := by
  induction steps generalizing c with
  | nil => rfl
  | cons step rest ih =>
    have hcons : c.logInPlace (step :: rest) =
        let (answer, next) := (stepInPlace step).outcome c
        let (log, last) := next.logInPlace rest
        ((answer, next) :: log, last) := rfl
    rw [hcons, outcome_stepInPlace]
    dsimp only
    rw [ih]
    rfl

theorem take_of_not_isOk (h : (c.take step).1.isOk = false) : (c.take step).2 = c := by
  cases step with
  | reset => cases h
  | add r =>
    cases hadd : c.addRule r with
    | error e => rw [take_add_of_error hadd]
    | ok result =>
      rw [take_add_of_ok hadd] at h
      cases h

/-- A step that fails is left out, and as it changes nothing, the rest is as it would be without it.
-/
theorem succeeding_cons (c : Coverage) (step : Step π) (rest : List (Step π)) :
    c.succeeding (step :: rest) =
      if (c.take step).1.isOk then step :: (c.take step).2.succeeding rest
      else c.succeeding rest := by
  rw [succeeding, outcome_stepInPlace]
  change (if (c.take step).1.isOk then _ else (c.take step).2.succeeding rest) = _
  cases h : (c.take step).1.isOk with
  | true => rfl
  | false => rw [if_neg Bool.false_ne_true, if_neg Bool.false_ne_true, take_of_not_isOk h]

/-- Of a run in two parts, the steps that do not fail are those of the first part and those of the
second part that goes on from there. -/
theorem succeeding_append (c : Coverage) (steps more : List (Step π)) :
    c.succeeding (steps ++ more) = c.succeeding steps ++ (c.after steps).succeeding more := by
  induction steps generalizing c with
  | nil => rfl
  | cons step rest ih =>
    rw [List.cons_append, succeeding_cons, succeeding_cons, after_cons]
    cases h : (c.take step).1.isOk with
    | true =>
      rw [if_pos rfl, if_pos rfl, ih]
      rfl
    | false => rw [if_neg Bool.false_ne_true, if_neg Bool.false_ne_true, ih, take_of_not_isOk h]

theorem after_succeeding (c : Coverage) (steps : List (Step π)) :
    c.after (c.succeeding steps) = c.after steps := by
  induction steps generalizing c with
  | nil => rfl
  | cons step rest ih =>
    rw [succeeding_cons, after_cons]
    cases h : (c.take step).1.isOk with
    | true => rw [if_pos rfl, after_cons, ih]
    | false => rw [if_neg Bool.false_ne_true, ih, take_of_not_isOk h]

theorem run_succeeding (c : Coverage) (steps : List (Step π)) :
    c.run (c.succeeding steps) = (c.run steps).filter (·.1.isOk) := by
  induction steps generalizing c with
  | nil => rfl
  | cons step rest ih =>
    rw [succeeding_cons, run]
    cases h : (c.take step).1.isOk with
    | true => rw [if_pos rfl, run, List.filter_cons, h, if_pos rfl, ih]
    | false =>
      rw [if_neg Bool.false_ne_true, List.filter_cons, h, if_neg Bool.false_ne_true, ih,
        take_of_not_isOk h]

/-- **Steps that fail leave no trace.**  The steps of a run that succeed have the same answers and
leave the same coverages when the others are not taken, and after any number of steps the coverage
is what the steps among them that succeed make of it.  A rule with a disjunction within a
disjunction always fails, whatever else it selects. -/
theorem logInPlace_succeeding (c : Coverage) (steps : List (Step π)) :
    (c.logInPlace (c.succeeding steps)).1 = (c.logInPlace steps).1.filter (·.1.isOk) ∧
    (∀ n, c.succeeding (steps.take n) <+: c.succeeding steps ∧
      (c.logInPlace (steps.take n)).2 = (c.logInPlace (c.succeeding (steps.take n))).2) ∧
    ∀ (r : Rule π) children inner, r.selector = .anyOf children → .anyOf inner ∈ children →
      (addInPlace r).outcome c = (.error .nestedOr, c) := by
  simp only [logInPlace_eq]
  refine ⟨run_succeeding c steps, ?_, ?_⟩
  · intro n
    refine ⟨⟨(c.after (steps.take n)).succeeding (steps.drop n), ?_⟩, (after_succeeding c _).symm⟩
    rw [← succeeding_append, List.take_append_drop]
  · intro r children inner hr hinner
    have hadd : c.addRule r = .error .nestedOr := by
      rw [addRule, toFragments_nested c hr hinner]
      rfl
    rw [outcome_addInPlace, take_add_of_error hadd]

/-- A rule with a disjunction within a disjunction, after a clause that could be claimed. -/
def nestedRule : Rule String := ⟨nestedSelector, "", 0, none, none⟩

/-- It fails after the rule for two lanes, and the rule for everything goes on from there as if it
had not been tried. -/
theorem logInPlace_nestedRule :
    let steps := [.add Rule.twoLanes, .add nestedRule, .add Rule.everything]
    let kept := [.add Rule.twoLanes, .add Rule.everything]
    (logInPlace {} kept).1 = (logInPlace {} steps).1.filter (·.1.isOk) ∧
      (logInPlace {} (steps.take 2)).2 = (logInPlace {} (kept.take 1)).2 ∧
      (addInPlace nestedRule).outcome (after {} (kept.take 1)) =
        (.error .nestedOr, after {} (kept.take 1)) := by
  intro steps kept
  have hnested := fun c ↦ (logInPlace_succeeding c steps).2.2 nestedRule _ _ rfl
    (List.mem_cons_of_mem _ List.mem_cons_self)
  have hempty : IsReadable {} none {} := ⟨rfl, rfl, List.forall_mem_nil _⟩
  have htwoLanes : ∀ r, Step.add Rule.twoLanes = .add r → r.Addable none {} := by
    rintro _ ⟨⟩
    exact Rule.addable_twoLanes _
  have heverything : ∀ r, Step.add Rule.everything = .add r → r.Addable none {} := by
    rintro _ ⟨⟩
    exact Rule.addable_of_clause rfl trivial
  obtain ⟨hfirst, hnext⟩ := hempty.take htwoLanes
  obtain ⟨hlast, -⟩ := hnext.take heverything
  have hskip : ∀ (c : Coverage) rest,
      c.succeeding (.add nestedRule :: rest) = c.succeeding rest := by
    intro c rest
    rw [succeeding_cons, ← outcome_stepInPlace, stepInPlace, hnested]
    rfl
  have hsteps : succeeding {} steps = kept := by
    rw [succeeding_cons, if_pos hfirst, hskip, succeeding_cons, if_pos hlast]
    rfl
  have htwo : succeeding {} (steps.take 2) = kept.take 1 := by
    rw [List.take_succ_cons, succeeding_cons, if_pos hfirst, List.take_succ_cons, hskip]
    rfl
  obtain ⟨hlog, hparts, -⟩ := logInPlace_succeeding {} steps
  rw [hsteps] at hlog
  rw [← htwo]
  exact ⟨hlog, (hparts 2).2, hnested _⟩

end Coverage

end RuleCoverage
