import PropertyList.Text.Basic

/-!
# Digits and blanks of any script

A person typing a number may use the decimal digits of any script and put blanks of any kind
around it. `Text.plainNumeral` spells such a number with ASCII digits and without the outer
blanks, which is the form that the readers of numerals take.

The tables hold the general category `Nd` and the white space of Unicode 14.

## Main definitions

* `Point.digit?`, `Point.isBlank`, `Text.trim`, `Text.plainNumeral`
-/

namespace PropertyList

/-- The code points of the zeros. The nine code points after each are its script's other digits. -/
def decimalZeros : List Nat :=
  [0x30, 0x660, 0x6F0, 0x7C0, 0x966, 0x9E6, 0xA66, 0xAE6, 0xB66, 0xBE6, 0xC66, 0xCE6, 0xD66,
   0xDE6, 0xE50, 0xED0, 0xF20, 0x1040, 0x1090, 0x17E0, 0x1810, 0x1946, 0x19D0, 0x1A80, 0x1A90,
   0x1B50, 0x1BB0, 0x1C40, 0x1C50, 0xA620, 0xA8D0, 0xA900, 0xA9D0, 0xA9F0, 0xAA50, 0xABF0,
   0xFF10, 0x104A0, 0x10D30, 0x11066, 0x110F0, 0x11136, 0x111D0, 0x112F0, 0x11450, 0x114D0,
   0x11650, 0x116C0, 0x11730, 0x118E0, 0x11950, 0x11C50, 0x11D50, 0x11DA0, 0x16A60, 0x16AC0,
   0x16B50, 0x1D7CE, 0x1D7D8, 0x1D7E2, 0x1D7EC, 0x1D7F6, 0x1E140, 0x1E2F0, 0x1E950, 0x1FBF0]

/-- The value of a decimal digit of any script. -/
def Point.digit? (p : Point) : Option Nat :=
  (decimalZeros.find? fun first => first ≤ p.code && p.code ≤ first + 9).map (p.code - ·)

/-- Whether a point is white space around a number. -/
def Point.isBlank (p : Point) : Bool :=
  p.code ∈ [0x9, 0xA, 0xB, 0xC, 0xD, 0x20, 0x85, 0xA0, 0x1680, 0x2000, 0x2001, 0x2002, 0x2003,
    0x2004, 0x2005, 0x2006, 0x2007, 0x2008, 0x2009, 0x200A, 0x2028, 0x2029, 0x202F, 0x205F, 0x3000]

namespace Text

/-- The text without the blanks at its two ends. -/
def trim (t : Text) : Text :=
  ((t.dropWhile Point.isBlank).reverse.dropWhile Point.isBlank).reverse

/-- The text without outer blanks and with each digit replaced by the ASCII digit of its value. -/
def plainNumeral (t : Text) : Text :=
  t.trim.map fun p => (p.digit?.map fun d => .char (Nat.digitChar d)).getD p

end Text

end PropertyList
