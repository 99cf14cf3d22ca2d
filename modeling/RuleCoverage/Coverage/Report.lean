import RuleCoverage.Coverage.Basic
import RuleCoverage.Number.Nearest

/-!
# Reports

A coverage and a list of rules can be shown as tables, and a coverage as a listing.  Where a feature
table is given, reports also say how many of its features each fragment's predicate holds of.
-/

set_option autoImplicit false

namespace RuleCoverage

/-- An entry of a report. -/
inductive ReportEntry where
  | double (x : Double)
  | int (n : Int)
  | bool (b : Bool)
  | text (s : String)
  | literal (v : Literal)
  | missing

/-- A report: the name and the entries of each column. -/
structure Report where
  columns : List (String × List ReportEntry)

/-- The number of features that a predicate holds of. -/
def Predicate.support (tests : RowTests) (frame : Frame) (p : Predicate) : Except Error Nat :=
  (·.count true) <$> p.mask tests frame

namespace Coverage

/-- One row for each fragment. -/
def report (tests : RowTests) (c : Coverage) (frame : Option Frame) : Except Error Report := do
  let support ← match frame with
    | none => pure []
    | some frame => do
      let counts ← c.fragments.mapM fun f ↦ f.predicate.support tests frame
      pure [("support", counts.map fun n ↦ ReportEntry.int n)]
  let column (name : String) (entry : Fragment → ReportEntry) := (name, c.fragments.map entry)
  return ⟨[
    column "scale_min" fun f ↦ .double f.scale.low,
    column "scale_max" fun f ↦ .double f.scale.high,
    column "min_inclusive" fun f ↦ .bool f.scale.lowIncluded,
    column "max_inclusive" fun f ↦ .bool f.scale.highIncluded,
    column "predicate" fun f ↦ .text f.predicate.text] ++ support⟩

end Coverage

/-- The entries of a column of literals. -/
def Report.columnOf (vs : List Literal) : List ReportEntry :=
  (Literal.aligned vs).map fun v ↦ if v.isMissing then .missing else .literal v

/-- One row for each rule; `payload` says what to show of a payload. -/
def Rule.report {π : Type} (payload : π → Literal) (rules : List (Rule π)) : Report :=
  let column (name : String) (entry : Rule π → ReportEntry) := (name, rules.map entry)
  ⟨[
    column "position" fun r ↦ .int r.position,
    column "derived" fun r ↦ .bool r.isDerived,
    column "comment" fun r ↦ match r.comment with
      | some c => .text c
      | none => .missing,
    column "selector" fun r ↦ .text r.selector.text,
    ("payload", Report.columnOf (rules.map fun r ↦ payload r.payload))]⟩

/-! ## Listings -/

namespace Report

/-- A text filled up with spaces on the left. -/
def padLeft (width : Nat) (s : String) : String := "".pushn ' ' (width - s.length) ++ s

/-- A part of a whole in percent, with one digit behind the point. -/
def percentText (part whole : Nat) : String :=
  let percent := if whole = 0 then Double.zero else .nearest false (100 * part) whole
  let tenths := roundHalfEven (10 * percent.units) unitsOfOne
  padLeft 4 (toString (tenths / 10) ++ "." ++ toString (tenths % 10))

/-- A part of a whole and its percentage. -/
def supportText (part whole : Nat) : String :=
  "[" ++ toString part ++ "/" ++ toString whole ++ " = " ++ percentText part whole ++ "%]"

/-- The first `count` items of a list; a negative count leaves out as many at the end. -/
def firstItems {α : Type} (count : Int) (xs : List α) : List α :=
  xs.take (if count < 0 then xs.length - count.natAbs else count.toNat)

end Report

namespace Coverage

def defaultTitle : String := "Domain coverage"

def defaultMaxItems : Int := 60

/-- The line of a listing for the fragment of a given number. -/
def listingLine (tests : RowTests) (frame : Option Frame) (number : Nat) (f : Fragment) :
    Except Error String := do
  let support ← match frame with
    | none => pure ""
    | some frame => do
      pure ("    " ++ Report.supportText (← f.predicate.support tests frame) frame.rows)
  return Report.padLeft 3 (toString number) ++ ". scale " ++ f.scale.text ++ "  " ++
    f.predicate.text ++ support

/-- A title, a line for each of the first fragments, and the number of those left out. -/
def listing (tests : RowTests) (c : Coverage) (frame : Option Frame) (title : String)
    (maxItems : Int) : Except Error String := do
  let lines ← ((Report.firstItems maxItems c.fragments).zipIdx 1).mapM fun (f, number) ↦
    listingLine tests frame number f
  let more := if maxItems < c.size then
    ["     ... " ++ toString (c.size - maxItems) ++ " more"] else []
  return "\n".intercalate <|
    ["=== " ++ title ++ " (" ++ toString c.size ++ " fragments) ==="] ++ lines ++ more

end Coverage

end RuleCoverage
