/-
Quoted literals.

A text is shown between single quotes, or between double quotes if it holds a single
quote and no double quote. The quote in use and the backslash are escaped by a
backslash; line feed, carriage return and tab have escapes of one letter; any other
unprintable character is written by its code point in two, four or eight lower-case
hexadecimal digits, the fewest that hold it.
-/
import PatternAutomata.Text.Printable

set_option autoImplicit false

namespace PatternAutomata.Text

/-- A number in lower-case hexadecimal, with zeros in front up to a width. -/
def hex (width : Nat) (n : Nat) : List Char :=
  let digits := Nat.toDigits 16 n
  List.replicate (width - digits.length) '0' ++ digits

/-- The quote that encloses a text. -/
def quoteFor (cs : List Char) : Char :=
  if '\'' ∈ cs ∧ '"' ∉ cs then '"' else '\''

/-- How one character is written between two quotes. -/
def escape (quote c : Char) : List Char :=
  if c = quote ∨ c = '\\' then ['\\', c]
  else if c = '\n' then ['\\', 'n']
  else if c = '\r' then ['\\', 'r']
  else if c = '\t' then ['\\', 't']
  else if isPrintable c then [c]
  else if c.toNat < 0x100 then '\\' :: 'x' :: hex 2 c.toNat
  else if c.toNat < 0x10000 then '\\' :: 'u' :: hex 4 c.toNat
  else '\\' :: 'U' :: hex 8 c.toNat

/-- A text as a quoted literal. -/
def quoted (s : String) : String :=
  let quote := quoteFor s.toList
  String.ofList (quote :: s.toList.flatMap (escape quote) ++ [quote])

/-- Texts in square brackets, parted by a comma and a space. -/
def bracketed (items : List String) : String :=
  "[" ++ ", ".intercalate items ++ "]"

end PatternAutomata.Text
