import RuleCoverage.Text.Graphic

/-!
# Quoted texts

A text inside a longer line is written between quotes.  The quote is `'`, or `"` when the text
holds a `'` and no `"`.  The backslash, the quote in use, line ends and tabs are escaped; a
character that is not graphic is written by its code point, with as many hexadecimal digits as its
size asks for (two, four or eight).
-/

set_option autoImplicit false

namespace RuleCoverage

namespace Quoted

/-- A number in lower-case hexadecimal, filled up with zeros to `width` digits. -/
def hex (width n : Nat) : List Char :=
  let digits := Nat.toDigits 16 n
  List.replicate (width - digits.length) '0' ++ digits

/-- What stands for a character between two `quote`s. -/
def escape (quote c : Char) : List Char :=
  if c == '\\' || c == quote then ['\\', c]
  else if c == '\n' then ['\\', 'n']
  else if c == '\r' then ['\\', 'r']
  else if c == '\t' then ['\\', 't']
  else if isGraphic c then [c]
  else
    let code := c.toNat
    if code < 0x100 then '\\' :: 'x' :: hex 2 code
    else if code < 0x10000 then '\\' :: 'u' :: hex 4 code
    else '\\' :: 'U' :: hex 8 code

/-- The quote for a text: the apostrophe, unless only the other one is free. -/
def quoteFor (cs : List Char) : Char :=
  if cs.contains '\'' && !cs.contains '"' then '"' else '\''

end Quoted

/-- A text between quotes. -/
def quoted (s : String) : String :=
  let cs := s.toList
  let quote := Quoted.quoteFor cs
  String.ofList (quote :: cs.flatMap (Quoted.escape quote) ++ [quote])

end RuleCoverage
