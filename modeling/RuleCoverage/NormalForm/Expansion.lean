import RuleCoverage.NormalForm.Reduced
import RuleCoverage.NormalForm.AtomValues

/-!
# Disjunctive normal form

`Predicate.expand` turns a predicate, or its negation, into a list of terms of which it is the
disjunction.  Negations are pushed down to the atoms on the way.  Terms that contradict themselves
never arise, and the list is reduced after each step, so it stays short; it is empty exactly for a
predicate that is found to be unsatisfiable.

`Term.negateAll?` expands the negation of a list of terms, giving up when a list grows longer than a
given budget.
-/

set_option autoImplicit false

namespace RuleCoverage

/-- A bound on the number of terms. -/
inductive Budget where
  | atMost (limit : Extended)
  | unbounded

namespace Budget

/-- Whether a number of terms is more than the budget allows. -/
def exceededBy (n : Nat) : Budget → Bool
  | .atMost limit => limit < .finite (n : Int)
  | .unbounded => false

end Budget

namespace Predicate

/-- Fails for an atom with a part that cannot be a member of a set.  Opaque atoms are members of
sets, so they must not have such parts. -/
def checkMember : Predicate → Except Error Unit
  | .compare attr _ v => do
    let _ ← attr.toMember
    let _ ← v.toMember
  | .isIn attr _ | .isNull attr => do
    let _ ← attr.toMember
  | .between attr l h _ _ => do
    let _ ← attr.toMember
    let _ ← l.toMember
    let _ ← h.toMember
  | _ => .ok ()

/-- The terms of an atom or of its negation: at most one.  The values of the attribute are cut down
to those that it may take, and a demand for all of them is dropped. -/
def expandAtom (ctx : Interpretation) (atom : Predicate) (negated : Bool) :
    Except Error (List Term) := do
  let attr? := atom.attr?.bind Literal.text?
  if attr?.any ctx.isMissing then
    return if atom.holdsOfNull != negated then [.always] else []
  match attr?.bind fun attr ↦ (ctx.full? attr).map fun full ↦ (attr, full), ← ctx.values? atom with
  | some (attr, full), some values =>
    let values := (if negated then values.complement else values).inter full
    if values.isEmpty then return []
    else if values == full then return [.always]
    else return [.ofValues attr values]
  | _, _ => do
    checkMember atom
    return [.ofLiteral ⟨atom, !negated⟩]

end Predicate

namespace Term

/-- All conjunctions of a term of the first list with one of the second that can hold. -/
def conjunctions (ss ts : List Term) : List Term :=
  ss.flatMap fun s ↦ ts.filterMap s.conjoin?

/-- The single-constraint terms whose disjunction is the negation of a term. -/
def negation (ctx : Interpretation) (t : Term) : List Term :=
  t.constraints.filterMap (fun (attr, vs) ↦
    let rest := match ctx.full? attr with
      | some full => vs.complement.inter full
      | none => vs.complement
    if rest.isEmpty then none else some (ofValues attr rest)) ++
  t.literals.toList.map fun l ↦ ofLiteral l.negate

/-- The expansion of `acc` and the negation of each given term; none when it needs more terms than
the budget allows. -/
def negateFrom? (ctx : Interpretation) (budget : Budget) (acc : List Term) :
    List Term → Option (List Term)
  | [] => some acc
  | t :: rest =>
    let product := conjunctions acc (t.negation ctx)
    if budget.exceededBy product.length then none
    else match reduce ctx.full? product with
      | [] => some []
      | acc => negateFrom? ctx budget acc rest

/-- The expansion of the negation of a disjunction of terms; none when it needs more terms than the
budget allows. -/
def negateAll? (ctx : Interpretation) (budget : Budget) (ts : List Term) : Option (List Term) :=
  negateFrom? ctx budget [.always] ts

/-- The terms of a conjunction or a disjunction, given the terms of its parts.  When the left part
of a conjunction has no terms, the right part is not looked at. -/
def combine (ctx : Interpretation) (conjunctive : Bool) (left : List Term)
    (right : Unit → Except Error (List Term)) : Except Error (List Term) :=
  if conjunctive then
    if left.isEmpty then .ok []
    else (fun ts ↦ reduce ctx.full? (conjunctions left ts)) <$> right ()
  else (fun ts ↦ reduce ctx.full? (left ++ ts)) <$> right ()

end Term

namespace Predicate

/-- The terms whose disjunction is a predicate, or its negation. -/
def expand (ctx : Interpretation) : Predicate → (negated : Bool) → Except Error (List Term)
  | .always, negated => .ok (if negated then [] else [.always])
  | .never, negated => .ok (if negated then [.always] else [])
  | .not a, negated => expand ctx a (!negated)
  | .and a b, negated => do
    let left ← expand ctx a negated
    Term.combine ctx (!negated) left fun _ ↦ expand ctx b negated
  | .or a b, negated => do
    let left ← expand ctx a negated
    Term.combine ctx negated left fun _ ↦ expand ctx b negated
  | p, negated => expandAtom ctx p negated

end Predicate

end RuleCoverage
