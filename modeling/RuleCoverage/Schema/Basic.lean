import RuleCoverage.Literal.Members

/-!
# Schemas

A `Schema` says which attributes features have and of which kind each one is.  A categorical
attribute may have a list of categories.  A schema is what a predicate is read against:

* an attribute outside the schema is missing from every feature;
* a boolean attribute has the two truth values as its domain, a categorical one its categories;
* numbers and texts are unbounded.
-/

set_option autoImplicit false

namespace RuleCoverage

/-- The attributes of features and their kinds, in the order in which they were given. -/
structure Schema where
  kinds : List (String × Kind)
  categories : List (String × Distinct Scalar)
  name : String

namespace Schema

/-- The name of a schema that was given none. -/
def defaultName : String := "features"

/-- The kind that a literal names. -/
def kindNamed (v : Literal) : Except Error Kind :=
  match v.text?.bind Kind.ofName? with
  | some k => .ok k
  | none => .error (.unknownKind v)

/-- A schema with the given kinds and categories, where keys are literals whose text names an
attribute.  Categories may be given for categorical attributes only. -/
def make (kinds : List (Scalar × Literal)) (categories : List (Scalar × List Literal))
    (name : String) : Except Error Schema := do
  let kinds ← (Dictionary.ofList kinds).mapM fun (key, v) ↦ do
    return ((Literal.scalar key).display, ← kindNamed v)
  let categories ← (Dictionary.ofList categories).mapM fun (key, vs) ↦ do
    return ((Literal.scalar key).display, ← Distinct.ofLiterals vs)
  let kinds := Dictionary.ofList kinds
  let categories := Dictionary.ofList categories
  match categories.find? fun (a, _) ↦ Dictionary.get? a kinds != some .categorical with
  | some (a, _) => .error (.strayCategories a)
  | none => .ok ⟨kinds, categories, name⟩

/-- What a mapping says about an attribute: the name of its kind, or its categories. -/
inductive Entry where
  | kind (name : String)
  | categories (values : List Literal)

/-- What a literal says about an attribute.  The categories in a dictionary are its keys. -/
def Entry.ofLiteral : Literal → Except Error Entry
  | .scalar (.text name) => .ok (.kind name)
  | .list values => .ok (.categories values)
  | .dict entries => .ok (.categories (entries.map fun e ↦ .scalar e.1))
  | v => .error (.notIterable v)

/-- Fails for a name that is not one of a kind, and for categories that cannot be a set. -/
def Entry.check : Entry → Except Error Unit
  | .kind name => do let _ ← kindNamed (.text name)
  | .categories vs => do let _ ← Distinct.ofLiterals vs

/-- A schema from a mapping of attributes. -/
def ofMapping (entries : List (Scalar × Literal)) (name : String) : Except Error Schema := do
  let entries ← (Dictionary.ofList entries).mapM fun (key, v) ↦ do
    let entry ← Entry.ofLiteral v
    entry.check
    return (key, entry)
  make
    (entries.map fun (key, entry) ↦ match entry with
      | .kind name => (key, .text name)
      | .categories _ => (key, .text Kind.categorical.name))
    (entries.filterMap fun (key, entry) ↦ match entry with
      | .kind _ => none
      | .categories vs => some (key, vs))
    name

/-- The number of attributes. -/
def size (schema : Schema) : Nat := schema.kinds.length

/-- The kind of an attribute, if the schema has it. -/
def kind? (schema : Schema) (attr : String) : Option Kind := Dictionary.get? attr schema.kinds

/-- Whether the schema has an attribute of this name. -/
def has (schema : Schema) (attr : String) : Bool := (schema.kind? attr).isSome

/-- The categories of an attribute; none given, there are none. -/
def categoriesOf (schema : Schema) (attr : String) : Distinct Scalar :=
  (Dictionary.get? attr schema.categories).getD ∅

/-- Whether the schema has an attribute; asking for a value that cannot be a key is an error. -/
def contains (schema : Schema) (attr : Literal) : Except Error Bool := do
  let _ ← attr.toMember
  return attr.text?.any schema.has

/-- The name and the kind of an attribute of the schema. -/
def find (schema : Schema) (attr : Literal) : Except Error (String × Kind) := do
  let _ ← attr.toMember
  match attr.text?.bind fun a ↦ (schema.kind? a).map fun k ↦ (a, k) with
  | some found => return found
  | none => throw (.unknownAttribute attr schema.name)

/-- The kind of an attribute; it is an error to ask for one that the schema does not have. -/
def kind (schema : Schema) (attr : Literal) : Except Error Kind :=
  Prod.snd <$> schema.find attr

/-- The two truth values. -/
def truthValues : Distinct Scalar := .ofList [.bool true, .bool false]

/-- The finite domain of an attribute of a given kind, if it has one. -/
def domainOf (schema : Schema) (attr : String) : Kind → Option (Distinct Scalar)
  | .boolean => some truthValues
  | .categorical => some (schema.categoriesOf attr)
  | .numeric | .string => none

/-- The finite domain of an attribute, if it has one. -/
def domain (schema : Schema) (attr : Literal) : Except Error (Option (Distinct Scalar)) := do
  let (a, k) ← schema.find attr
  return schema.domainOf a k

/-- Whether a literal may be compared with an attribute: it must be of the attribute's kind, or, for
a categorical attribute, a category or any text. -/
def accepts (schema : Schema) (attr value : Literal) : Except Error Bool := do
  let (a, k) ← schema.find attr
  match k with
  | .categorical => return (schema.categoriesOf a).contains (← value.toMember) ||
      value.kind? == some .string
  | k => return value.kind? == some k

/-- Fails for the first of the given attributes that the schema does not have. -/
def check (schema : Schema) : List Literal → Except Error Unit
  | [] => return
  | attr :: rest => do
    if ← schema.contains attr then schema.check rest
    else throw (.unknownAttribute attr schema.name)

end Schema

end RuleCoverage
