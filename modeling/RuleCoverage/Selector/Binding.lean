import RuleCoverage.Selector.Basic
import RuleCoverage.Schema.Basic

/-!
# Binding a selector to a schema

`Selector.scaleRange?` and `Selector.bind` read the two parts of a clause.  Strict binding checks
the predicate against the schema: every attribute that it names by a text must be one of the
schema's, and every literal must be one that may be compared with its attribute.  Otherwise the
predicate is taken as it is; attributes that the schema does not have are missing.
-/

set_option autoImplicit false

namespace RuleCoverage

namespace Predicate

/-- Fails for the first of some literals that may not be compared with an attribute. -/
def checkValues (schema : Schema) (p : Predicate) (attr : String) :
    List Literal → Except Error Unit
  | [] => .ok ()
  | v :: rest => do
    if ← schema.accepts (.text attr) v then checkValues schema p attr rest
    else throw (.misfit p.text v (← schema.kind (.text attr)) attr)

/-- Fails for the first of some members of a set that may not be compared with an attribute. -/
def checkMembers (schema : Schema) (p : Predicate) (attr : String) :
    List Scalar → Except Error Unit
  | [] => .ok ()
  | v :: rest => do
    if ← schema.accepts (.text attr) (.scalar v) then checkMembers schema p attr rest
    else throw (.memberMisfit p.text (.scalar v) attr)

/-- Fails for the first literal of a predicate that may not be compared with its attribute. -/
def checkLiterals (schema : Schema) : Predicate → Except Error Unit
  | .and a b | .or a b => do
    checkLiterals schema a
    checkLiterals schema b
  | .not a => checkLiterals schema a
  | .compare (.scalar (.text attr)) op v =>
    checkValues schema (.compare (.text attr) op v) attr [v]
  | .between (.scalar (.text attr)) l h li hi =>
    checkValues schema (.between (.text attr) l h li hi) attr [l, h]
  | .isIn (.scalar (.text attr)) vs =>
    checkMembers schema (.isIn (.text attr) vs) attr vs.toList
  | _ => .ok ()

/-- Fails unless a predicate fits a schema: first the attributes are looked at, in order, then the
literals from left to right. -/
def checkAgainst (schema : Schema) (p : Predicate) : Except Error Unit := do
  schema.check (p.attributes.sortedTexts.map .text)
  p.checkLiterals schema

end Predicate

/-- The predicate of a clause, checked against the schema if binding is strict. -/
def Clause.bind (c : Clause) (schema : Option Schema) (strict : Bool) : Except Error Predicate := do
  match schema, strict with
  | some schema, true => c.predicate.checkAgainst schema
  | _, _ => pure ()
  return c.predicate

namespace Selector

/-- The scale range of a selector that is a clause; none, if every scale will do. -/
def scaleRange? : Selector → Except Error (Option Interval)
  | .clause c => .ok c.scale?
  | .anyOf _ => .error .scaleOfOr

/-- The predicate of a selector that is a clause, bound to a schema. -/
def bind (s : Selector) (schema : Option Schema) (strict : Bool) : Except Error Predicate :=
  match s with
  | .clause c => c.bind schema strict
  | .anyOf _ => .error .predicateOfOr

end Selector

end RuleCoverage
