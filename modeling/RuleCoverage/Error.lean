import RuleCoverage.Literal.Written

/-!
# What can go wrong

Every failure of the library is one of the causes below.  `Error.message?` words it; the only causes
without words are the ones found while a table is made or searched, such as a cell that does not fit
its column or a comparison between values that have no order.
-/

set_option autoImplicit false

namespace RuleCoverage

/-- The name of a literal's type in a message. -/
def Literal.typeName : Literal → String
  | .scalar s => match s with
    | .null => "NoneType"
    | .bool _ => "bool"
    | .flag _ => "numpy.bool"
    | .int _ => "int"
    | .double _ | .nan => "float"
    | .text _ => "str"
  | .list _ => "list"
  | .dict _ => "dict"

/-- The causes of failure. -/
inductive Error where
  /-- A text that is no numeral stands where a number is needed. -/
  | unreadableNumber (text : String)
  /-- A value of another type stands where a number is needed. -/
  | notANumber (value : Literal)
  /-- A whole number lies beyond the finite doubles. -/
  | tooLargeForDouble
  | boundIsNaN
  | boundsReversed (low high : Double)
  /-- A list or a dictionary stands where a member of a set is needed. -/
  | unhashable (value : Literal)
  | unknownOperator (name : String)
  /-- A value that is not the name of a kind stands where a kind is needed. -/
  | unknownKind (value : Literal)
  /-- A value that is neither a text nor a collection stands where categories are needed. -/
  | notIterable (value : Literal)
  | strayCategories (attr : String)
  | unknownAttribute (attr : Literal) (schema : String)
  /-- A column of a type without a kind; its name is given as the table writes it. -/
  | unsupportedColumn (name : String) (dtype : String)
  /-- A literal of the wrong kind is compared with an attribute of a known kind. -/
  | misfit (predicate : String) (value : Literal) (kind : Kind) (attr : String)
  /-- A member of a value set is of the wrong kind. -/
  | memberMisfit (predicate : String) (value : Literal) (attr : String)
  | scaleOfOr
  | predicateOfOr
  | nestedOr
  /-- A selector that is no disjunction is to be flattened. -/
  | flattenedClause
  | maxTermsBelowOne
  /-- The budget is compared with one, but is not a number. -/
  | maxTermsUnordered (value : Literal)
  /-- A number of terms is compared with a budget that is not a number. -/
  | termsUnordered (value : Literal)
  | unknownOption (name : String)
  /-- An option has the name of the configuration itself. -/
  | reservedOption (name : String)
  /-- Rules are sorted by comment, and one of two compared comments is missing. -/
  | commentsUnordered (left right : Literal)
  /-- A row test did not answer with one truth value per row label. -/
  | rowTestMalformed
  /-- The answer of a row test names a row twice. -/
  | repeatedRowLabel
  /-- A boolean taken from a table is compared with a list of none or of several items, which gives
  as many answers. -/
  | ambiguousTruth (answers : Nat)
  /-- The same where the list stands in a table. -/
  | ambiguousValue
  /-- The predicate has no truth value by itself. -/
  | meaningless
  /-- Two values that have no order are compared by order. -/
  | incomparable
  /-- A boolean taken from a table is compared with a text by order. -/
  | flagWithoutOrder
  /-- A text is compared with a missing literal where a truth value is needed. -/
  | undecided
  /-- Cells are compared with a list that does not have one item for each of them. -/
  | lengthMismatch
  /-- A dictionary stands where items are taken by their place. -/
  | itemsByPlace
  /-- A list or a dictionary stands where a name of a column or a label is looked for. -/
  | unhashableLabel
  /-- A category is missing or occurs twice. -/
  | badCategories
  /-- A cell is of a type that its column cannot read. -/
  | cellType
  /-- A cell is of a type that its column can read, but has no value in it. -/
  | cellValue
  /-- A cell is a number too large for its column. -/
  | cellTooLarge

namespace Error

/-- A comparison between two types that have no common order. -/
private def unordered (symbol left right : String) : String :=
  quoted symbol ++ " not supported between instances of '" ++ left ++ "' and '" ++ right ++ "'"

/-- The wording of a failure, if it has one. -/
def message? : Error → Option String
  | .unreadableNumber text => some ("could not convert string to float: " ++ quoted text)
  | .notANumber v =>
    some ("float() argument must be a string or a real number, not '" ++ v.typeName ++ "'")
  | .tooLargeForDouble => some "int too large to convert to float"
  | .boundIsNaN => some "Interval bounds must not be NaN"
  | .boundsReversed low high =>
    some ("Interval low bound " ++ low.text ++ " exceeds high bound " ++ high.text)
  | .unhashable v => some ("unhashable type: '" ++ v.typeName ++ "'")
  | .unknownOperator name => some ("Unsupported comparison operator: <ufunc '" ++ name ++ "'>")
  | .unknownKind v => some (v.repr ++ " is not a valid AttributeKind")
  | .notIterable v => some (quoted v.typeName ++ " object is not iterable")
  | .strayCategories a => some ("Categories given for non-categorical attribute " ++ quoted a)
  | .unknownAttribute a schema =>
    some ("Attribute " ++ a.repr ++ " is not part of schema " ++ quoted schema)
  | .unsupportedColumn name dtype =>
    some ("Unsupported dtype for attribute " ++ name ++ ": " ++ dtype)
  | .misfit p v kind a =>
    some (p ++ ": literal " ++ v.repr ++ " does not fit " ++ kind.name ++ " attribute " ++ quoted a)
  | .memberMisfit p v a =>
    some (p ++ ": literal " ++ v.repr ++ " does not fit attribute " ++ quoted a)
  | .scaleOfOr => some "scale_range expects a conjunctive selector, got an OR"
  | .predicateOfOr => some "build_predicate expects a conjunctive selector, got an OR"
  | .nestedOr => some ("Unexpected OR selector nested inside another one; " ++
      "selectors must be flattened before computing coverage")
  | .flattenedClause => some "'Selector' object has no attribute 'flattened'"
  | .maxTermsBelowOne => some "max_terms must be ≥ 1"
  | .maxTermsUnordered v => some (unordered "<" v.typeName "int")
  | .termsUnordered v => some (unordered ">" "int" v.typeName)
  | .unknownOption name =>
    some ("CoverageConfig.__init__() got an unexpected keyword argument " ++ quoted name)
  | .reservedOption name =>
    some ("CoverageConfig.__init__() got multiple values for argument " ++ quoted name)
  | .commentsUnordered a b => some (unordered "<" a.typeName b.typeName)
  | .rowTestMalformed => some "Where(fn) must return a boolean pandas Series."
  | .ambiguousTruth 0 =>
    some ("The truth value of an empty array is ambiguous. " ++
      "Use `array.size > 0` to check that an array is not empty.")
  | .ambiguousTruth _ =>
    some ("The truth value of an array with more than one element is ambiguous. " ++
      "Use a.any() or a.all()")
  | .meaningless => some ""
  | .repeatedRowLabel | .incomparable | .flagWithoutOrder | .undecided | .lengthMismatch
  | .itemsByPlace | .ambiguousValue
  | .unhashableLabel | .badCategories | .cellType | .cellValue | .cellTooLarge => none

end Error

end RuleCoverage
