import RuleCoverage.Coverage.Basic

/-!
# Runs

A coverage grows in steps: rules are added to it one after another, and now and then it is reset.  A
step that fails leaves the coverage as it was, so one can go on with the next step.

* `Coverage.take` gives the answer of a step and the coverage after it;
* `Coverage.run` takes steps one after another, `Coverage.after` is the coverage at the end.
-/

set_option autoImplicit false

namespace RuleCoverage

namespace Coverage

variable {π : Type}

/-- What can be done to a coverage. -/
inductive Step (π : Type) where
  | add (r : Rule π)
  | reset

/-- The answer of a step, which is the new pieces of the rule, and the coverage after the step. -/
def take (c : Coverage) : Step π → Except Error (List (Rule π)) × Coverage
  | .add r =>
    match c.addRule r with
    | .ok (pieces, next) => (.ok pieces, next)
    | .error e => (.error e, c)
  | .reset => (.ok [], c.reset)

/-- The answer of each of some steps and the coverage after it. -/
def run (c : Coverage) : List (Step π) → List (Except Error (List (Rule π)) × Coverage)
  | [] => []
  | step :: rest => c.take step :: (c.take step).2.run rest

/-- The coverage after some steps. -/
def after (c : Coverage) (steps : List (Step π)) : Coverage :=
  steps.foldl (fun c step ↦ (c.take step).2) c

theorem take_add_of_ok {c next : Coverage} {r : Rule π} {pieces : List (Rule π)}
    (h : c.addRule r = .ok (pieces, next)) : c.take (.add r) = (.ok pieces, next) := by
  simp [take, h]

theorem take_add_of_error {c : Coverage} {r : Rule π} {e : Error} (h : c.addRule r = .error e) :
    c.take (.add r) = (.error e, c) := by
  simp [take, h]

theorem after_cons (c : Coverage) (step : Step π) (rest : List (Step π)) :
    c.after (step :: rest) = (c.take step).2.after rest := rfl

end Coverage

end RuleCoverage
