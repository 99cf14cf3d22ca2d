import RuleCoverage.Proofs.Coverage.Addable

/-!
# What a coverage covers

Whatever steps a coverage has taken, it covers what the rules select that were added to it since it
was last reset (`Coverage.covers_after`).  Each step keeps this, since a step that fails leaves the
coverage as it is.

* `Coverage.added` — the rules that were added since the last reset, which are all of them if they
  can always be added (`Coverage.added_eq_sinceReset`).
* `Coverage.covers_take`, `Coverage.covers_steps` — the fragments tile what these rules select.
-/

set_option autoImplicit false

namespace RuleCoverage

variable {π : Type} {row : Row} {schema? : Option Schema} {x : Double}

namespace Coverage

/-- The rules that have been added since the last reset, after one more step.  A rule that cannot be
added is not among them. -/
def addedBy (c : Coverage) (rules : List (Rule π)) : Step π → List (Rule π)
  | .reset => []
  | .add r =>
    match c.addRule r with
    | .ok _ => rules ++ [r]
    | .error _ => rules

/-- The rules that have been added since the last reset, after some more steps. -/
def added (c : Coverage) (rules : List (Rule π)) : List (Step π) → List (Rule π)
  | [] => rules
  | step :: rest => added (c.take step).2 (c.addedBy rules step) rest

variable {c : Coverage} {rules : List (Rule π)} {step : Step π} {steps : List (Step π)}

/-- No step changes what predicates are read against. -/
theorem take_schema (c : Coverage) (step : Step π) : (c.take step).2.schema = c.schema := by
  cases step with
  | reset => rfl
  | add r =>
    cases h : c.addRule r with
    | error e => rw [take_add_of_error h]
    | ok result => rw [take_add_of_ok h, addRule_schema h]

/-- The fragments of a coverage tile what some rules select. -/
abbrev Covers (c : Coverage) (row : Row) (x : Double) (rules : List (Rule π)) : Prop :=
  Fragment.Tile row c.schema x c.fragments (rules.any (Rule.selects row x))

/-- **A step keeps that a coverage covers what was added to it.** -/
theorem covers_take (hrow : row.Conforms c.schema) (hc : c.Covers row x rules)
    (hstep : ∀ r, step = .add r → r.selector.JudgedBy row c.schema) :
    (c.take step).2.Covers row x (c.addedBy rules step) := by
  rw [Covers, take_schema]
  cases step with
  | reset => exact Fragment.tile_nil
  | add r =>
    rw [addedBy]
    cases h : c.addRule r with
    | error e =>
      rw [take_add_of_error h]
      exact hc
    | ok result =>
      rw [take_add_of_ok h, List.any_append, List.any_cons, List.any_nil, Bool.or_false]
      exact (addRule_spec hrow hc (hstep r rfl) h).1

/-- What a coverage covers after some steps is what was added to it. -/
theorem covers_steps (hrow : row.Conforms c.schema) (hc : c.Covers row x rules)
    (hsteps : ∀ r, .add r ∈ steps → r.selector.JudgedBy row c.schema) :
    (c.after steps).schema = c.schema ∧ (c.after steps).Covers row x (c.added rules steps) := by
  induction steps generalizing c rules with
  | nil => exact ⟨rfl, hc⟩
  | cons step steps ih =>
    rw [after_cons, added]
    have hschema := c.take_schema step
    have hnext := covers_take hrow hc fun r hr ↦ hsteps r (hr ▸ List.mem_cons_self)
    rw [← hschema] at hrow hsteps ⊢
    exact ih hrow hnext fun r hr ↦ hsteps r (List.mem_cons_of_mem _ hr)

/-- **After any run of steps** at most one fragment holds of a row at a scale, the coverage covers
the row there just when a rule that was added selects it, and the pieces that adding a further rule
gives select, each something else, what that rule selects and was not covered. -/
theorem covers_after (config : Config) (hrow : row.Conforms schema?)
    (hsteps : ∀ r, .add r ∈ steps → r.selector.JudgedBy row schema?) :
    let start : Coverage := { schema := schema?, config := config }
    let covered := (start.added [] steps).any (Rule.selects row x)
    (start.after steps).fragments.countP (Fragment.holds row x) ≤ 1 ∧
      (start.after steps).covers row.tests row.toFrame (.double x) = .ok [covered] ∧
      ∀ (r : Rule π) pieces next, r.selector.JudgedBy row schema? →
        (start.after steps).addRule r = .ok (pieces, next) →
        pieces.countP (Rule.selects row x) = (r.selects row x && !covered).toNat := by
  intro start covered
  have hempty : start.Covers row x ([] : List (Rule π)) := Fragment.tile_nil
  obtain ⟨hschema, hcovers⟩ := covers_steps (c := start) hrow hempty hsteps
  refine ⟨?_, ?_, ?_⟩
  · exact hcovers.depth.trans_le (Bool.toNat_le _)
  · rw [covers_toFrame fun f hf ↦ (hcovers.judged f hf).exists_holds, hcovers.any_holds]
  · intro r pieces next hr h
    have hrow' : row.Conforms (start.after steps).schema := by rwa [hschema]
    have hr' : r.selector.JudgedBy row (start.after steps).schema := by rwa [hschema]
    exact (addRule_spec hrow' hcovers hr' h).2

/-! ### Rules that can always be added -/

/-- The rules that have been added since the last reset, if none of the steps fails. -/
def sinceReset (rules : List (Rule π)) : List (Step π) → List (Rule π)
  | [] => rules
  | .reset :: rest => sinceReset [] rest
  | .add r :: rest => sinceReset (rules ++ [r]) rest

/-- Of rules that can always be added, all have been added that came after the last reset. -/
theorem added_eq_sinceReset {config : Config} (hc : c.IsReadable schema? config)
    (hsteps : ∀ r, .add r ∈ steps → r.Addable schema? config) :
    c.added rules steps = sinceReset rules steps := by
  induction steps generalizing c rules with
  | nil => rfl
  | cons step steps ih =>
    have hnext := (hc.take fun r hr ↦ hsteps r (hr ▸ List.mem_cons_self)).2
    rw [added, ih hnext fun r hr ↦ hsteps r (List.mem_cons_of_mem _ hr)]
    cases step with
    | reset => rfl
    | add r =>
      obtain ⟨pieces, next, hadd, -⟩ := exists_addRule hc (hsteps r List.mem_cons_self)
      rw [addedBy, hadd, sinceReset]

/-- After a reset, two rules are added that overlap.  Both select two lanes on the near scales, and
neither selects three lanes on the far ones, so only there is something new to the rule for
everything. -/
theorem covers_after_two_lanes :
    let start : Coverage := { config := .withoutSearch }
    let c := start.after [.add Rule.everything, .reset, .add Rule.twoLanes, .add Rule.near]
    ∃ pieces next, c.addRule Rule.everything = .ok (pieces, next) ∧
      (c.fragments.countP (Fragment.holds (.ofInt "lanes" 2) .zero) ≤ 1 ∧
        c.covers (Row.ofInt "lanes" 2).tests (Row.ofInt "lanes" 2).toFrame (.double .zero) =
          .ok [true] ∧
        pieces.countP (Rule.selects (.ofInt "lanes" 2) .zero) = 0) ∧
      c.fragments.countP (Fragment.holds (.ofInt "lanes" 3) .one) ≤ 1 ∧
        c.covers (Row.ofInt "lanes" 3).tests (Row.ofInt "lanes" 3).toFrame (.double .one) =
          .ok [false] ∧
        pieces.countP (Rule.selects (.ofInt "lanes" 3) .one) = 1 := by
  let steps : List (Step String) :=
    [.add Rule.everything, .reset, .add Rule.twoLanes, .add Rule.near]
  intro start c
  have hrules : ∀ r, .add r ∈ steps → r = Rule.everything ∨ r = Rule.twoLanes ∨ r = Rule.near := by
    simp [steps]
  have hbase : Rule.everything.Addable none .withoutSearch := Rule.addable_of_clause rfl trivial
  have hadds : ∀ r, .add r ∈ steps → r.Addable none .withoutSearch := by
    intro r hr
    rcases hrules r hr with rfl | rfl | rfl
    · exact hbase
    · exact Rule.addable_twoLanes _
    · exact Rule.addable_of_clause rfl trivial
  have hstart : start.IsReadable none .withoutSearch := ⟨rfl, rfl, List.forall_mem_nil _⟩
  have hadded : start.added [] steps = [Rule.twoLanes, Rule.near] :=
    added_eq_sinceReset hstart hadds
  obtain ⟨pieces, next, hadd, -⟩ := exists_addRule (hstart.after hadds) hbase
  have hjudged : ∀ n : Int, n = 2 ∨ n = 3 → ∀ r, .add r ∈ steps →
      r.selector.JudgedBy (.ofInt "lanes" n) none := by
    intro n hn r hr
    rcases hrules r hr with rfl | rfl | rfl
    · exact Rule.judgedBy_everything
    · exact Rule.judgedBy_twoLanes hn
    · exact Rule.judgedBy_near
  have hcovered : (start.added [] steps).any (Rule.selects (.ofInt "lanes" 2) .zero) = true := by
    rw [hadded]
    decide +kernel
  have huncovered : (start.added [] steps).any (Rule.selects (.ofInt "lanes" 3) .one) = false := by
    rw [hadded]
    decide +kernel
  refine ⟨pieces, next, hadd, ?_, ?_⟩
  · obtain ⟨hdisjoint, hcovers, hnew⟩ := covers_after (x := .zero) .withoutSearch
      (fun _ h ↦ by cases h) (hjudged 2 (.inl rfl))
    have hcount := hnew _ _ _ Rule.judgedBy_everything hadd
    rw [hcovered] at hcovers hcount
    exact ⟨hdisjoint, hcovers, hcount⟩
  · obtain ⟨hdisjoint, hcovers, hnew⟩ := covers_after (x := .one) .withoutSearch
      (fun _ h ↦ by cases h) (hjudged 3 (.inr rfl))
    have hcount := hnew _ _ _ Rule.judgedBy_everything hadd
    rw [huncovered] at hcovers hcount
    exact ⟨hdisjoint, hcovers, hcount.trans (by decide +kernel)⟩

/-- The rule for a number that is no double. -/
def roundedRule : Rule String := ⟨.rounded fullScaleRange, "", 0, none, none⟩

/-- A coverage reads a number as a double, so it covers a row that the only rule does not select. -/
theorem covers_rounded :
    (after { config := .withoutSearch } [.add roundedRule]).covers
        (Row.ofInt "x" (2 ^ 53 + 1)).tests (Row.ofInt "x" (2 ^ 53 + 1)).toFrame (.double .zero) =
          .ok [true] ∧
      (added { config := .withoutSearch } [] [.add roundedRule]).any
        (Rule.selects (.ofInt "x" (2 ^ 53 + 1)) .zero) = false := by
  have hscale : fullScaleRange.isEmpty = false := by decide +kernel
  have hno : [roundedRule].any (Rule.selects (.ofInt "x" (2 ^ 53 + 1)) .zero) = false := by
    decide +kernel
  obtain ⟨q, hq, hr⟩ := exists_toFragments_rounded hscale []
  have hadd : addRule { config := .withoutSearch } roundedRule =
      .ok ([roundedRule], { config := .withoutSearch, fragments := [⟨fullScaleRange, q⟩] }) :=
    bind_eq_ok.2 ⟨_, hq, rfl⟩
  rw [after, List.foldl_cons, List.foldl_nil, take_add_of_ok hadd, added, added, addedBy, hadd]
  refine ⟨(covers_toFrame fun f hf ↦ ⟨true, ?_⟩).trans ?_, hno⟩
  · rw [List.mem_singleton.1 hf]
    exact hr
  · rw [List.any_cons, List.any_nil, Fragment.holds, Predicate.isTrueOf_of_holds hr]
    rfl

end Coverage

end RuleCoverage
