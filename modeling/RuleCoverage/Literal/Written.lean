import RuleCoverage.Literal.Basic
import RuleCoverage.Number.Written
import RuleCoverage.Text.Quoted

/-!
# How literals are written

`Literal.repr` is the form of a literal inside a longer text: texts are quoted, lists stand in
brackets, dictionaries in braces in the order of their keys.  `Literal.display` is the form of a
literal that stands alone: a text is itself.
-/

set_option autoImplicit false

namespace RuleCoverage

def truthText (b : Bool) : String := if b then "True" else "False"

/-- The written form of a scalar inside a longer text. -/
def Scalar.repr : Scalar → String
  | .null => "None"
  | .bool b => truthText b
  | .flag b => "np." ++ truthText b ++ "_"
  | .int n => toString n
  | .double x => x.text
  | .nan => "nan"
  | .text s => quoted s

namespace Literal

mutual

/-- The written form of a literal inside a longer text. -/
def repr : Literal → String
  | .scalar s => s.repr
  | .list items => "[" ++ ", ".intercalate (reprList items) ++ "]"
  | .dict entries => "\x7b" ++ ", ".intercalate (reprEntries entries) ++ "\x7d"

def reprList : List Literal → List String
  | [] => []
  | x :: xs => repr x :: reprList xs

def reprEntries : List (Scalar × Literal) → List String
  | [] => []
  | (k, v) :: rest => (k.repr ++ ": " ++ repr v) :: reprEntries rest

end

/-- The written form of a literal on its own. -/
def display : Literal → String
  | .scalar (.text s) => s
  | .scalar (.flag b) => truthText b
  | x => x.repr

end Literal

end RuleCoverage
