import RuleCoverage.Error

/-!
# Comments that have an order

Rules can be sorted by comment only if all of them have one; a single rule always can.  Otherwise
the error tells which two comments met first, and that is decided by how the sort goes through them:

* it takes a *run* from the front, as long as it ascends, or strictly descends, comparing each
  comment with the one before it;
* a run shorter than a minimal length is filled up to it, and each comment that is added is compared
  with comments of the run;
* then it goes on with the rest, and the runs are merged.

A missing comment is an error as soon as it is compared, so at most one comment of the list can have
come to the end of it uncompared: the one that is a run by itself.
-/

set_option autoImplicit false

namespace RuleCoverage

namespace CommentOrder

/-- A comment as a literal; a missing one is null. -/
def literal (comment : Option String) : Literal := (comment.map Literal.text).getD .null

/-- Whether one comment comes before another. -/
def less (a b : Option String) : Except Error Bool :=
  match a, b with
  | some s, some t => .ok (s < t)
  | a, b => .error (.commentsUnordered (literal a) (literal b))

/-- The number of comments that continue a run whose last comment is given. -/
def continuation (descending : Bool) (last : Option String) :
    List (Option String) → Except Error Nat
  | [] => .ok 0
  | c :: rest => do
    if (← less c last) == descending then return (← continuation descending c rest) + 1
    else return 0

/-- The length of the run at the front of a list. -/
def runLength : List (Option String) → Except Error Nat
  | [] => .ok 0
  | [_] => .ok 1
  | a :: b :: rest => do return (← continuation (← less b a) b rest) + 2

/-- The length up to which runs of a list of the given length are filled: the length itself, halved
until it is below 64, and one more if a halving was not even. -/
def minimalRun (length : Nat) (uneven : Bool) : Nat :=
  if length < 64 then length + if uneven then 1 else 0
  else minimalRun (length / 2) (uneven || length % 2 == 1)

/-- Fails for a missing comment that is compared with a comment that is there. -/
def checkPresent (comments : List (Option String)) : Except Error Unit :=
  if comments.all Option.isSome then .ok ()
  else .error (.commentsUnordered .null (.text ""))

/-- Goes through a list run by run. -/
def checkRuns (minimal : Nat) : List (Option String) → Except Error Unit
  | [] => .ok ()
  | [c] => checkPresent [c]
  | a :: b :: rest => do
    let run := max (← runLength (a :: b :: rest)) minimal
    checkPresent ((a :: b :: rest).take run)
    checkRuns minimal (rest.drop (run - 2))
termination_by comments => comments.length

/-- Fails when some comments have no order. -/
def check (comments : List (Option String)) : Except Error Unit :=
  match comments with
  | [] | [_] => .ok ()
  | comments => checkRuns (minimalRun comments.length false) comments

end CommentOrder

end RuleCoverage
