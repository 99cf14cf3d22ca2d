import RuleCoverage.Number.Nearest
import RuleCoverage.Text.DecimalDigit

/-!
# Reading a number from text

A numeral has an optional sign and then either one of the words `inf`, `infinity` and `nan` in any
case, or digits with an optional point and an optional power of ten: `12`, `.5`, `1.`, `1_000e-3`.
A single underscore may stand between two digits.  Blanks around the numeral are ignored.  The
result is the double nearest to the number that is written.

* `Numeral.plain?` maps the text to ASCII and takes out blanks and underscores;
* `Numeral.decimal?` reads the digits;
* `Numeral.read?` joins the two;
* `Numeral.readInt?` reads a whole number and keeps it exact.
-/

set_option autoImplicit false

namespace RuleCoverage

namespace Numeral

/-- What a numeral denotes. -/
inductive Reading where
  | number (x : Double)
  | notANumber

/-- Digits of other scripts become ASCII digits, wide blanks become spaces.  A text of ASCII
characters only is left alone. -/
def toAscii (cs : List Char) : List Char :=
  cs.map fun c ↦
    if c.toNat < 0x7f then c
    else if isWideBlank c then ' '
    else match decimalDigit? c with
      | some d => Char.ofNat ('0'.toNat + d)
      | none => c

def trim (cs : List Char) : List Char :=
  ((cs.dropWhile isAsciiBlank).reverse.dropWhile isAsciiBlank).reverse

/-- Takes out the underscores; none if one of them is not between two digits. -/
def dropUnderscores? (afterDigit : Bool) : List Char → Option (List Char)
  | [] => some []
  | '_' :: c :: cs =>
    if afterDigit && c.isDigit then (dropUnderscores? true cs).map (c :: ·) else none
  | ['_'] => none
  | c :: cs => (dropUnderscores? c.isDigit cs).map (c :: ·)

/-- The characters of the numeral itself. -/
def plain? (s : String) : Option (List Char) :=
  dropUnderscores? false (trim (toAscii s.toList))

/-- The number written by digits. -/
def natOf (digits : List Char) : Nat :=
  digits.foldl (fun n c ↦ 10 * n + (c.toNat - '0'.toNat)) 0

/-- The digits at the start of a text, and the rest. -/
def spanDigits (cs : List Char) : List Char × List Char :=
  (cs.takeWhile Char.isDigit, cs.dropWhile Char.isDigit)

/-- A sign at the start of a text: whether it is negative, and the rest. -/
def spanSign : List Char → Bool × List Char
  | '-' :: cs => (true, cs)
  | '+' :: cs => (false, cs)
  | cs => (false, cs)

/-- The power of ten at the end of a numeral; a numeral without one has power zero. -/
def exponent? : List Char → Option Int
  | [] => some 0
  | c :: cs =>
    if c == 'e' || c == 'E' then
      let (negative, rest) := spanSign cs
      match spanDigits rest with
      | ([], _) => none
      | (digits, []) =>
        let n : Int := natOf digits
        some (if negative then -n else n)
      | _ => none
    else none

/-- The double nearest to `digits * 10 ^ exponent`.  Powers so far out that the answer can only be
zero or infinity are not computed. -/
def ofDecimal (negative : Bool) (digits : Nat) (exponent : Int) : Double :=
  let size : Int := (Nat.toDigits 10 digits).length + exponent
  if digits = 0 ∨ size < -400 then .zeroOf negative
  else if 400 < size then .infinityOf negative
  else if 0 ≤ exponent then Double.nearest negative (digits * tenPow exponent.toNat) 1
  else Double.nearest negative digits (tenPow (-exponent).toNat)

/-- Reads digits, an optional point with digits, and an optional power of ten. -/
def decimal? (negative : Bool) (cs : List Char) : Option Double :=
  let (whole, rest) := spanDigits cs
  let (fraction, rest) := match rest with
    | '.' :: tail => spanDigits tail
    | tail => ([], tail)
  if whole.isEmpty && fraction.isEmpty then none
  else (exponent? rest).map fun e ↦
    ofDecimal negative (natOf (whole ++ fraction)) (e - fraction.length)

/-- Reads a numeral. -/
def read? (s : String) : Option Reading := do
  let cs ← plain? s
  let (negative, body) := spanSign cs
  let word := String.ofList (body.map Char.toLower)
  if word == "inf" || word == "infinity" then
    return .number (.infinityOf negative)
  else if word == "nan" then
    return .notANumber
  else
    (decimal? negative body).map .number

/-- Reads a numeral that consists of digits only, with an optional sign. -/
def readInt? (s : String) : Option Int := do
  let (negative, body) := spanSign (← plain? s)
  if body.isEmpty || !body.all Char.isDigit then none
  else
    let n : Int := natOf body
    return if negative then -n else n

end Numeral

end RuleCoverage
