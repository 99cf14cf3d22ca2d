import RuleCoverage.Predicate.Basic
import RuleCoverage.Schema.Basic
import RuleCoverage.Values.Basic

/-!
# How attributes are read

To reason about a predicate one has to know which values its attributes may take.  A schema says
so.  Without one, the kind of an attribute is inferred from the literals that the predicate compares
it with: if they are all of one kind, that is the kind of the attribute.  An attribute that is only
tested for null may be anything, and texts are as good as any other unbounded kind.

An `Interpretation` holds this knowledge.  An attribute that has no kind in it is not interpreted,
and its comparisons are left alone.
-/

set_option autoImplicit false

namespace RuleCoverage

namespace Predicate

/-- The parts of a predicate that are not joined by and, or and not. -/
def atoms : Predicate → List Predicate
  | .and a b | .or a b => atoms a ++ atoms b
  | .not a => atoms a
  | p => [p]

/-- The literals that an atom compares its attribute with; none if it compares nothing. -/
def literals? : Predicate → Option (List Literal)
  | .compare _ _ v => some [v]
  | .isIn _ vs => some (vs.toList.map .scalar)
  | .between _ l h _ _ => some [l, h]
  | _ => none

/-- Fails for an atom whose attribute cannot be a key. -/
def checkAttr (atom : Predicate) : Except Error Unit :=
  match atom.attr? with
  | some attr => do let _ ← attr.toMember
  | none => .ok ()

end Predicate

/-- How the attributes of a predicate are read. -/
structure Interpretation where
  schema? : Option Schema
  /-- The kinds inferred without a schema; some attributes have none. -/
  inferred : List (String × Option Kind)

namespace Interpretation

/-- The kind that all of some literals have. -/
def commonKind? : List Literal → Option Kind
  | [] => none
  | v :: vs => if vs.all fun w ↦ w.kind? == v.kind? then v.kind? else none

/-- The kind of an attribute as the atoms of a predicate suggest it. -/
def inferKind? (atoms : List Predicate) (attr : String) : Option Kind :=
  let uses := atoms.filter fun p ↦ (p.attr?.bind Literal.text?) == some attr
  match uses.filterMap Predicate.literals? with
  | [] => some .string
  | compared => commonKind? compared.flatten

/-- Reads a predicate without a schema.  The attributes are looked at from right to left; one that
cannot be a key is an error. -/
def infer (p : Predicate) : Except Error Interpretation := do
  let atoms := p.atoms
  atoms.reverse.forM Predicate.checkAttr
  return ⟨none, p.attributes.toList.map fun attr ↦ (attr, inferKind? atoms attr)⟩

/-- Reads a predicate against a schema, or without one. -/
def of (p : Predicate) : Option Schema → Except Error Interpretation
  | some schema => .ok ⟨some schema, []⟩
  | none => infer p

/-- Whether an attribute is missing from every feature. -/
def isMissing (ctx : Interpretation) (attr : String) : Bool :=
  ctx.schema?.any fun schema ↦ !schema.has attr

/-- The kind of an attribute, if it is interpreted. -/
def kind? (ctx : Interpretation) (attr : String) : Option Kind :=
  match ctx.schema? with
  | some schema => schema.kind? attr
  | none => (Dictionary.get? attr ctx.inferred).join

/-- All values that an attribute may take, the missing value among them. -/
def full? (ctx : Interpretation) (attr : String) : Option ValueSet :=
  (ctx.kind? attr).map fun
    | .numeric => .numeric .full
    | k => .discrete (.full (ctx.schema?.bind fun schema ↦ schema.domainOf attr k))

end Interpretation

end RuleCoverage
