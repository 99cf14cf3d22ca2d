import RuleCoverage.Number.Double
import RuleCoverage.Distinct
import RuleCoverage.Dictionary

/-!
# Literals

The values that rules are written with and that features carry.  A `Scalar` is an atomic value; a
`Literal` may also be a list or a dictionary.

Equality of scalars does not look at the type of a number: `1`, `1.0` and `True` are equal.  It is
equality of `Scalar.key`, which reads a number as the exact point of the line it stands for and
counts a boolean as `0` or `1`.  NaN equals itself here; the comparisons of features
(`RuleCoverage.Feature.Cell`) treat it differently.  Lists are equal item by item, dictionaries when
they have the same keys with equal values, in any order.  A boolean taken from a table also equals
a list that holds nothing but an equal scalar, so equality of literals is not transitive.

Only scalars can be members of a set, because a list or a dictionary has no fixed place among the
members: such a value is *unhashable*.
-/

set_option autoImplicit false

namespace RuleCoverage

/-- An atomic value. -/
inductive Scalar where
  | null
  | bool (b : Bool)
  /-- A boolean taken from a table; as a scalar it equals the plain boolean and only looks
  different. -/
  | flag (b : Bool)
  | int (n : Int)
  | double (x : Double)
  | nan
  | text (s : String)
deriving Inhabited

namespace Scalar

/-- What a scalar is up to equality. -/
inductive Key where
  | null
  | nan
  | number (x : Extended)
  | text (s : String)
deriving DecidableEq

/-- A fixed order of keys, by which the entries of dictionaries can be sorted. -/
def Key.le : Key → Key → Bool
  | .null, _ => true
  | .nan, .null => false
  | .nan, _ => true
  | .number _, .null | .number _, .nan => false
  | .number x, .number y => x ≤ y
  | .number _, .text _ => true
  | .text s, .text t => !(t < s)
  | .text _, _ => false

/-- The number that a boolean counts as. -/
def ofBool (b : Bool) : Int := if b then 1 else 0

/-- The exact number that a scalar stands for; NaN is not one. -/
def number? : Scalar → Option Extended
  | .bool b | .flag b => some (.finite (ofBool b))
  | .int n => some (.finite n)
  | .double x => some x.value
  | .null | .nan | .text _ => none

def key : Scalar → Key
  | .null => .null
  | .nan => .nan
  | .text s => .text s
  | .bool b | .flag b => .number (.finite (ofBool b))
  | .int n => .number (.finite n)
  | .double x => .number x.value

/-- A boolean from a table as a plain one. -/
def plain : Scalar → Scalar
  | .flag b => .bool b
  | s => s

instance : BEq Scalar := ⟨fun a b ↦ a.key == b.key⟩

theorem beq_iff_key (a b : Scalar) : (a == b) = true ↔ a.key = b.key := by
  simp [BEq.beq]

instance : EquivBEq Scalar where
  rfl := by intro a; simp [beq_iff_key]
  symm := by intro a b h; rw [beq_iff_key] at *; exact h.symm
  trans := by intro a b c h h'; rw [beq_iff_key] at *; exact h.trans h'

end Scalar

/-- A value: a scalar, a list or a dictionary. -/
inductive Literal where
  | scalar (s : Scalar)
  | list (items : List Literal)
  | dict (entries : List (Scalar × Literal))
deriving Inhabited

namespace Literal

abbrev null : Literal := .scalar .null
abbrev bool (b : Bool) : Literal := .scalar (.bool b)
abbrev int (n : Int) : Literal := .scalar (.int n)
abbrev double (x : Double) : Literal := .scalar (.double x)
abbrev text (s : String) : Literal := .scalar (.text s)

/-- The scalar in a list of one item, which may itself be such a list. -/
def sole? : Literal → Option Scalar
  | .scalar s => some s
  | .list [x] => sole? x
  | _ => none

mutual

/-- Equality of literals. -/
def beq : Literal → Literal → Bool
  | .scalar a, .scalar b => a == b
  | .list xs, .list ys => beqList xs ys
  | .dict xs, .dict ys => xs.length == ys.length && beqEntries xs ys
  | .scalar (.flag b), y => y.sole?.any (· == .flag b)
  | x, .scalar (.flag b) => x.sole?.any (· == .flag b)
  | _, _ => false

def beqList : List Literal → List Literal → Bool
  | [], [] => true
  | x :: xs, y :: ys => beq x y && beqList xs ys
  | _, _ => false

/-- Whether each entry of the first list has an equal one in the second. -/
def beqEntries : List (Scalar × Literal) → List (Scalar × Literal) → Bool
  | [], _ => true
  | (k, v) :: rest, ys => (ys.any fun e ↦ k == e.1 && beq v e.2) && beqEntries rest ys

end

instance : BEq Literal := ⟨beq⟩

mutual

theorem beq_self : ∀ x : Literal, beq x x = true
  | .scalar s => by simp [beq]
  | .list xs => by simp [beq, beqList_self xs]
  | .dict xs => by simp [beq, beqEntries_self xs xs fun _ h ↦ h]

theorem beqList_self : ∀ xs : List Literal, beqList xs xs = true
  | [] => by simp [beqList]
  | x :: xs => by simp [beqList, beq_self x, beqList_self xs]

theorem beqEntries_self : ∀ xs ys : List (Scalar × Literal), (∀ e ∈ xs, e ∈ ys) →
    beqEntries xs ys = true
  | [], _, _ => by simp [beqEntries]
  | (k, v) :: rest, ys, h => by
    have hv := beq_self v
    have hrest := beqEntries_self rest ys fun e he ↦ h e (List.mem_cons_of_mem _ he)
    simp only [beqEntries, hrest, Bool.and_true, List.any_eq_true, Bool.and_eq_true]
    exact ⟨(k, v), h _ List.mem_cons_self, by simp, hv⟩

end

instance : ReflBEq Literal := ⟨fun {x} ↦ beq_self x⟩

theorem scalar_beq_scalar (a b : Scalar) : (Literal.scalar a == .scalar b) = (a == b) := by
  simp [BEq.beq, beq]

/-- The dictionary of a list of entries. -/
def ofEntries (entries : List (Scalar × Literal)) : Literal := .dict (Dictionary.ofList entries)

/-- Whether a literal stands for a missing value. -/
def isMissing : Literal → Bool
  | .scalar .null | .scalar .nan => true
  | _ => false

/-- The text of a literal that is a text. -/
def text? : Literal → Option String
  | .scalar (.text s) => some s
  | _ => none

/-- Whether a literal counts as true where a flag is asked for: everything but null, false, zero
and what is empty. -/
def isTruthy : Literal → Bool
  | .scalar s => match s with
    | .null => false
    | .bool b | .flag b => b
    | .int n => n != 0
    | .double x => x.rank != 0
    | .nan => true
    | .text s => s != ""
  | .list items => !items.isEmpty
  | .dict entries => !entries.isEmpty

end Literal

/-- The kinds of attribute values. -/
inductive Kind where
  | numeric
  | boolean
  | string
  | categorical
deriving DecidableEq, Repr

namespace Kind

def name : Kind → String
  | .numeric => "numeric"
  | .boolean => "boolean"
  | .string => "string"
  | .categorical => "categorical"

def ofName? : String → Option Kind
  | "numeric" => some .numeric
  | "boolean" => some .boolean
  | "string" => some .string
  | "categorical" => some .categorical
  | _ => none

@[simp] theorem ofName?_name (k : Kind) : ofName? k.name = some k := by cases k <;> rfl

end Kind

/-- The kind that a scalar implies by itself.  Nothing is categorical by itself. -/
def Scalar.kind? : Scalar → Option Kind
  | .bool _ | .flag _ => some .boolean
  | .int _ | .double _ | .nan => some .numeric
  | .text _ => some .string
  | .null => none

def Literal.kind? : Literal → Option Kind
  | .scalar s => s.kind?
  | _ => none

end RuleCoverage
