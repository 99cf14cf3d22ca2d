import RuleCoverage.NormalForm.Interpretation

/-!
# Terms

A `Term` is a conjunction: for some attributes a set of values that the attribute must lie in, and
some opaque atoms that must be true or false.  The attributes stand in increasing order, so that
terms with the same constraints are equal.

* `Term.conjoin?` joins two terms, unless they contradict each other;
* `Term.implies` decides whether one term is stronger than another;
* `Term.merge?` finds a single term for the disjunction of two that differ in one place.
-/

set_option autoImplicit false

namespace RuleCoverage

/-- An atom that is not interpreted, or its negation. -/
structure OpaqueLiteral where
  atom : Predicate
  positive : Bool

namespace OpaqueLiteral

instance : BEq OpaqueLiteral := ⟨fun a b ↦ a.atom == b.atom && a.positive == b.positive⟩

def negate (l : OpaqueLiteral) : OpaqueLiteral := ⟨l.atom, !l.positive⟩

end OpaqueLiteral

/-- A conjunction of constraints on different attributes and of opaque literals. -/
structure Term where
  constraints : List (String × ValueSet)
  literals : Distinct OpaqueLiteral

namespace Term

instance : BEq Term := ⟨fun s t ↦ s.constraints == t.constraints && s.literals == t.literals⟩

/-- The term that always holds. -/
def always : Term := ⟨[], ∅⟩

/-- Whether the term demands nothing. -/
def isAlways (t : Term) : Bool := t.constraints.isEmpty && t.literals.isEmpty

/-- The term that demands a value of one attribute. -/
def ofValues (attr : String) (values : ValueSet) : Term := ⟨[(attr, values)], ∅⟩

/-- The term that demands one opaque literal. -/
def ofLiteral (l : OpaqueLiteral) : Term := ⟨[], .singleton l⟩

/-- Adds a constraint to constraints in order; none when no value is left for the attribute. -/
def constrain? (attr : String) (values : ValueSet) :
    List (String × ValueSet) → Option (List (String × ValueSet))
  | [] => some [(attr, values)]
  | (a, vs) :: rest =>
    if a == attr then
      let both := vs.inter values
      if both.isEmpty then none else some ((a, both) :: rest)
    else if attr < a then some ((attr, values) :: (a, vs) :: rest)
    else (constrain? attr values rest).map ((a, vs) :: ·)

/-- The conjunction of two terms; none when it cannot hold. -/
def conjoin? (s t : Term) : Option Term := do
  let constraints ← t.constraints.foldlM (fun acc (attr, vs) ↦ constrain? attr vs acc) s.constraints
  let literals := s.literals.union t.literals
  if literals.toList.any fun l ↦ literals.contains l.negate then none
  else some ⟨constraints, literals⟩

/-- Whether `s` demands everything that `t` demands. -/
def implies (s t : Term) : Bool :=
  t.literals.subset s.literals && t.constraints.all fun (attr, vs) ↦
    match Dictionary.get? attr s.constraints with
    | some us => us.subset vs
    | none => false

/-- Joins the value sets of the one attribute in which two lists of constraints on the same
attributes differ.  A constraint that the union makes void is dropped. -/
def mergeValues? (full? : String → Option ValueSet) :
    List (String × ValueSet) → List (String × ValueSet) → Option (List (String × ValueSet))
  | (a, us) :: rest, (b, vs) :: rest' =>
    if a != b then none
    else if us == vs then (mergeValues? full? rest rest').map ((a, us) :: ·)
    else if rest == rest' then
      let both := us.union vs
      some (if full? a == some both then rest else (a, both) :: rest)
    else none
  | _, _ => none

/-- A single term that is equivalent to `s` or `t`, when they differ in one place: in the values of
one attribute, or in the sign of one opaque literal. -/
def merge? (full? : String → Option ValueSet) (s t : Term) : Option Term :=
  if s.literals == t.literals then
    (mergeValues? full? s.constraints t.constraints).map fun cs ↦ ⟨cs, s.literals⟩
  else if s.constraints == t.constraints then
    match (s.literals.diff t.literals).toList ++ (t.literals.diff s.literals).toList with
    | [l, m] =>
      if l.atom == m.atom && l.positive != m.positive then
        some ⟨s.constraints, s.literals.inter t.literals⟩
      else none
    | _ => none
  else none

end Term

end RuleCoverage
