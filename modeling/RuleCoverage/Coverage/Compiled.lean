import RuleCoverage.Coverage.Basic
import RuleCoverage.Coverage.CommentOrder

/-!
# Compiling rules

`Rule.compile` turns rules that overlap into rules that do not: it adds them to an empty coverage in
order of priority and collects the pieces.  The order is the one given, or by position, or by
comment.
-/

set_option autoImplicit false

namespace RuleCoverage

/-- The order in which rules are compiled, where it is not the one given. -/
inductive RuleOrder where
  | byPosition
  | byPositionDescending
  | byComment

namespace Rule

variable {π : Type}

/-- Rules in a given order; rules that are equal in it stay in the order they have. -/
def arrange (order : RuleOrder) (rules : List (Rule π)) : Except Error (List (Rule π)) :=
  match order with
  | .byPosition => .ok (rules.mergeSort fun a b ↦ a.position ≤ b.position)
  | .byPositionDescending => .ok (rules.mergeSort fun a b ↦ b.position ≤ a.position)
  | .byComment => do
    CommentOrder.check (rules.map (·.comment))
    return rules.mergeSort fun a b ↦ !(b.comment.getD "" < a.comment.getD "")

/-- Adds rules to a coverage one after another and collects their pieces. -/
def compileFrom (c : Coverage) : List (Rule π) → Except Error (List (Rule π))
  | [] => .ok []
  | r :: rest => do
    let (pieces, c) ← c.addRule r
    return pieces ++ (← compileFrom c rest)

/-- Compiles rules into rules that do not overlap. -/
def compile (rules : List (Rule π)) (schema : Option Schema) (config : Config)
    (order : Option RuleOrder) : Except Error (List (Rule π)) := do
  let rules ← match order with
    | some order => arrange order rules
    | none => pure rules
  compileFrom { schema := schema, config := config } rules

end Rule

end RuleCoverage
