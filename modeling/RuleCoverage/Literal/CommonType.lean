import RuleCoverage.Literal.Basic
import RuleCoverage.Number.Nearest

/-!
# Lists of one type

Literals that stand side by side — the names of columns, the categories of an attribute, the entries
of a report — are stored under a common type if they have one:

* whole numbers of one machine word are stored as they are;
* numbers of which one is a double or missing are stored as doubles, provided that the whole ones
  among them fit one machine word;
* booleans are stored as plain booleans;
* texts are stored as texts, and every missing one as NaN;
* all other lists are stored as given.

`CommonType.of` is the common type of a list, `Literal.aligned` the list as it is stored.  The type
also decides which literals are found in a list: numbers never meet booleans there, unless the list
is stored as given.
-/

set_option autoImplicit false

namespace RuleCoverage

namespace Scalar

/-- Whether a scalar is a boolean of either spelling. -/
def isBool : Scalar → Bool
  | .bool _ | .flag _ => true
  | _ => false

/-- A whole number rounded to a double; one beyond the finite doubles stays. -/
def widened : Scalar → Scalar
  | .int n => match Double.ofInt? n with
    | some x => .double x
    | none => .int n
  | s => s

end Scalar

namespace Literal

/-- A change of the scalars among literals; lists and dictionaries stay. -/
def onScalar (f : Scalar → Scalar) : Literal → Literal
  | .scalar s => .scalar (f s)
  | v => v

/-- The whole number that a literal is written as. -/
def int? : Literal → Option Int
  | .scalar (.int n) => some n
  | _ => none

/-- Whether a literal is a number or missing.  Booleans are no numbers here. -/
def isNumberOrMissing : Literal → Bool
  | .scalar (.int _) | .scalar (.double _) => true
  | v => v.isMissing

def isNull : Literal → Bool
  | .scalar .null => true
  | _ => false

def isBool : Literal → Bool
  | .scalar s => s.isBool
  | _ => false

end Literal

/-- Whether whole numbers fit one machine word of 64 bits, signed or unsigned. -/
def fitOneWord (ns : List Int) : Bool :=
  let bound : Int := twoPow 63
  ns.all (fun n ↦ -bound ≤ n && n < 2 * bound) &&
    !(ns.any (· < 0) && ns.any fun n ↦ bound ≤ n)

/-- The types under which literals stand side by side. -/
inductive CommonType where
  | int
  | double
  | bool
  | text
  | mixed
deriving DecidableEq, Repr

namespace CommonType

/-- The common type of some literals.  Whole numbers that do not fit one word keep a list of numbers
from having one, wherever they stand. -/
def of (vs : List Literal) : CommonType :=
  if vs.all Literal.isNull then .mixed
  else if vs.all Literal.isNumberOrMissing then
    if !fitOneWord (vs.filterMap Literal.int?) then .mixed
    else if vs.all fun v ↦ v.int?.isSome then .int
    else .double
  else if vs.all Literal.isBool then .bool
  else if vs.all fun v ↦ v.text?.isSome || v.isMissing then .text
  else .mixed

/-- A scalar as it is stored under a common type. -/
def store : CommonType → Scalar → Scalar
  | .double, .null => .nan
  | .double, s => s.widened
  | .bool, s => s.plain
  | .text, .null => .nan
  | _, s => s

/-- Whether a stored label is the one that a scalar asks for.  A whole number is rounded among
doubles; among texts, null and NaN are the same. -/
def finds (type : CommonType) (label s : Scalar) : Bool :=
  match type with
  | .int => !s.isBool && label == s
  | .double => !s.isBool && label == s.widened
  | .bool => s.isBool && label == s
  | .text => label == (match s with
    | .null => .nan
    | s => s)
  | .mixed => label == s

/-- Whether a label of a list of the one type is equal to a member of a list of the other type.
Numbers and booleans are not, and whole numbers are rounded where they meet doubles. -/
def agree (type other : CommonType) (label s : Scalar) : Bool :=
  match type, other with
  | .int, .bool | .double, .bool | .bool, .int | .bool, .double => false
  | .int, .double | .double, .int => label.widened == s.widened
  | _, _ => label == s

/-- Whether a label equals a member of a set.  A set of booleans has them as its common type;
members of any other set are taken one by one. -/
def agreesWithSome (type : CommonType) (label : Scalar) (values : List Scalar) : Bool :=
  values.any (type.agree (if values.all Scalar.isBool then .bool else .mixed) label)

end CommonType

/-- Literals as they are stored side by side. -/
def Literal.aligned (vs : List Literal) : List Literal :=
  vs.map (Literal.onScalar (CommonType.of vs).store)

end RuleCoverage
