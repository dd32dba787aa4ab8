/-
Digits and the numbers they write.

Unicode has two notions of digit. A decimal digit is one of a run of ten that stand
for zero to nine in some script, so a row of them writes a number in base ten. The
wider class of digits adds characters such as superscripts and circled digits, which
stand for a single digit but write no number. Both are needed: a count is recognised
by the wider class and read by the narrower one (Unicode 14.0).
-/

set_option autoImplicit false

namespace PatternAutomata.Text

/-- The code points of the zeros; the nine characters after each one continue its
run. -/
def decimalZeros : List Nat := [
  0x30, 0x660, 0x6F0, 0x7C0, 0x966, 0x9E6, 0xA66, 0xAE6, 0xB66, 0xBE6, 0xC66, 0xCE6, 0xD66, 0xDE6,
  0xE50, 0xED0, 0xF20, 0x1040, 0x1090, 0x17E0, 0x1810, 0x1946, 0x19D0, 0x1A80, 0x1A90, 0x1B50,
  0x1BB0, 0x1C40, 0x1C50, 0xA620, 0xA8D0, 0xA900, 0xA9D0, 0xA9F0, 0xAA50, 0xABF0, 0xFF10, 0x104A0,
  0x10D30, 0x11066, 0x110F0, 0x11136, 0x111D0, 0x112F0, 0x11450, 0x114D0, 0x11650, 0x116C0,
  0x11730, 0x118E0, 0x11950, 0x11C50, 0x11D50, 0x11DA0, 0x16A60, 0x16AC0, 0x16B50, 0x1D7CE,
  0x1D7D8, 0x1D7E2, 0x1D7EC, 0x1D7F6, 0x1E140, 0x1E2F0, 0x1E950, 0x1FBF0]

/-- The ranges, ends included, of the digits that are not decimal. -/
def loneDigitRanges : List (Nat × Nat) := [
  (0xB2, 0xB3), (0xB9, 0xB9), (0x1369, 0x1371), (0x19DA, 0x19DA), (0x2070, 0x2070),
  (0x2074, 0x2079), (0x2080, 0x2089), (0x2460, 0x2468), (0x2474, 0x247C), (0x2488, 0x2490),
  (0x24EA, 0x24EA), (0x24F5, 0x24FD), (0x24FF, 0x24FF), (0x2776, 0x277E), (0x2780, 0x2788),
  (0x278A, 0x2792), (0x10A40, 0x10A43), (0x10E60, 0x10E68), (0x11052, 0x1105A), (0x1F100, 0x1F10A)]

/-- The value of a decimal digit. -/
def decimalValue? (c : Char) : Option Nat :=
  (decimalZeros.find? (fun z => z ≤ c.toNat && c.toNat < z + 10)).map (c.toNat - ·)

/-- Whether a character is a decimal digit. -/
def isDecimal (c : Char) : Bool := (decimalValue? c).isSome

/-- Whether a character is a digit of either kind. -/
def isDigit (c : Char) : Bool :=
  isDecimal c || loneDigitRanges.any (fun r => r.1 ≤ c.toNat && c.toNat ≤ r.2)

/-- A decimal digit is a digit, so a row of decimal digits always has the form of a count. -/
theorem isDigit_of_isDecimal {c : Char} (h : isDecimal c = true) : isDigit c = true := by
  simp [isDigit, h]

/-- The number that a row of decimal digits writes, most significant first; any other character
spoils it.

A number may have any number of digits here. A limit on how long a numeral may be to be converted is
a setting of the machine that reads it and not of the pattern language, so none is modelled, and
neither is a limit on how deep functions may call themselves: a reader with such limits agrees with
this one on everything that stays within them. -/
def numeral? (cs : List Char) : Option Nat :=
  (cs.mapM decimalValue?).map (·.foldl (fun n d => 10 * n + d) 0)

/-- A row of characters writes a number exactly if each of them is a decimal digit. A count with a
digit that is not decimal has the form of a number without being one. -/
theorem numeral?_isSome {cs : List Char} :
    (numeral? cs).isSome = true ↔ ∀ c ∈ cs, isDecimal c = true := by
  rw [numeral?, Option.isSome_map]
  induction cs with
  | nil => simp
  | cons c cs ih =>
    rw [List.forall_mem_cons, ← ih, List.mapM_cons, isDecimal]
    cases decimalValue? c <;> cases cs.mapM decimalValue? <;> simp

end PatternAutomata.Text
