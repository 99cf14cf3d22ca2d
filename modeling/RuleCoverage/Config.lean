import RuleCoverage.NormalForm.Simplified

/-!
# Settings

The settings of a compilation: how many terms the search for tautologies may use, whether to search
at all, and whether predicates must fit the schema.  They are given as named literals.  A flag may
be any literal, of which only the truth matters; the bound must be a number of at least one, and NaN
bounds nothing.
-/

set_option autoImplicit false

namespace RuleCoverage

/-- The settings of a compilation. -/
structure Config where
  maxTerms : Literal := .int 256
  detectTautologies : Literal := .bool true
  strictSchema : Literal := .bool false

namespace Config

instance : Inhabited Config := ⟨{}⟩

instance : BEq Config := ⟨fun a b ↦
  a.maxTerms == b.maxTerms && a.detectTautologies == b.detectTautologies &&
    a.strictSchema == b.strictSchema⟩

/-- Fails unless a bound is a number of at least one. -/
def checkMaxTerms : Literal → Except Error Unit
  | .scalar .nan => .ok ()
  | .scalar s =>
    match s.number? with
    | some n => if n < .finite 1 then .error .maxTermsBelowOne else .ok ()
    | none => .error (.maxTermsUnordered (.scalar s))
  | v => .error (.maxTermsUnordered v)

/-- Changes one setting. -/
def set (config : Config) (name : String) (value : Literal) : Except Error Config :=
  match name with
  | "max_terms" => .ok { config with maxTerms := value }
  | "detect_tautologies" => .ok { config with detectTautologies := value }
  | "strict_schema" => .ok { config with strictSchema := value }
  | "self" => .error (.reservedOption name)
  | _ => .error (.unknownOption name)

/-- The settings with the given names; all others are as by default. -/
def ofOptions (options : List (String × Literal)) : Except Error Config := do
  let config ← options.foldlM (fun config (name, value) ↦ config.set name value) {}
  checkMaxTerms config.maxTerms
  return config

/-- The bound that a literal sets. -/
def budgetOf (v : Literal) : Budget :=
  match v with
  | .scalar s => match s.number? with
    | some n => .atMost n
    | none => .unbounded
  | _ => .unbounded

/-- Whether numbers of terms can be compared with a literal; null stands for no bound. -/
def isBound : Literal → Bool
  | .scalar s => s.number?.isSome || s.kind?.isNone || s.kind? == some .numeric
  | _ => false

/-- How much work simplification may do. -/
def effort (config : Config) : Effort :=
  ⟨budgetOf config.maxTerms, config.detectTautologies.isTruthy⟩

def isStrict (config : Config) : Bool := config.strictSchema.isTruthy

def text (config : Config) : String :=
  "CoverageConfig(max_terms=" ++ config.maxTerms.repr ++ ", detect_tautologies=" ++
    config.detectTautologies.repr ++ ", strict_schema=" ++ config.strictSchema.repr ++ ")"

end Config

/-- Simplifies with a bound on the search that may be any literal.  One that numbers cannot be
compared with is an error when there is something to search for. -/
def Predicate.simplifyWithin (p : Predicate) (schema : Option Schema) (bound : Literal)
    (detectsTautologies : Bool) : Except Error Predicate := do
  if detectsTautologies && !Config.isBound bound then
    if ← p.needsSearch schema then throw (.termsUnordered bound)
  p.simplify schema ⟨Config.budgetOf bound, detectsTautologies⟩

end RuleCoverage
