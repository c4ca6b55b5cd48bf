import PropertyList.Number.Double
import PropertyList.Text.Basic

/-!
# Numerals

The spellings of numbers. An integer is an optional sign and ASCII digits. A decimal number is an
optional sign, digits with an optional point among or around them, and an optional exponent of
ten. `inf`, `infinity` and `nan` are numbers too, in letters of either case.

Numbers of any size are read exactly, and only then rounded to a double-precision number.

## Main definitions

* `Numeral.splitInteger?`, `Numeral.readNatural`
* `Numeral.Spelled`, `Numeral.readReal?`, `Numeral.Spelled.toDouble`
-/

namespace PropertyList.Numeral

/-- The value of an ASCII digit. -/
def digit? : Point → Option Nat
  | .char c => if c.isDigit then some (c.toNat - '0'.toNat) else none
  | .stray _ => none

/-- Whether a point is an ASCII digit. -/
def isDigit (p : Point) : Bool :=
  (digit? p).isSome

/-- The number that a run of digits spells after the digits of `start`. -/
def readDigits (start : Nat) (t : Text) : Nat :=
  t.foldl (fun n p => 10 * n + (digit? p).getD 0) start

/-- The number that a run of digits spells. -/
def readNatural (t : Text) : Nat :=
  readDigits 0 t

/-- Takes a sign off a text. The first component tells whether it is a minus sign. -/
def splitSign : Text → Bool × Text
  | .char '-' :: t => (true, t)
  | .char '+' :: t => (false, t)
  | t => (false, t)

/-- Whether a text consists of digits and is not empty. -/
def isDigits (t : Text) : Bool :=
  !t.isEmpty && t.all isDigit

/-- The sign and the digits of an integer. -/
def splitInteger? (t : Text) : Option (Bool × Text) :=
  let (negative, digits) := splitSign t
  if isDigits digits then some (negative, digits) else none

/-- The integer with a sign and digits. -/
def integerOf (negative : Bool) (digits : Text) : Int :=
  if negative then -(readNatural digits : Int) else readNatural digits

/-- A spelled real number. -/
inductive Spelled where
  | nan
  | infinity (negative : Bool)
  /-- The number `coefficient * 10 ^ exponent`, negated if `negative` holds. -/
  | decimal (negative : Bool) (coefficient : Nat) (exponent : Int)
  deriving DecidableEq, Repr

/-- The exponent that a text spells after the digits of a number. No text spells zero. -/
def readExponent? : Text → Option Int
  | [] => some 0
  | p :: t =>
    if p = .char 'e' ∨ p = .char 'E' then
      (splitInteger? t).map fun (negative, digits) => integerOf negative digits
    else none

/-- The number that digits, a point and an exponent spell. -/
def readDecimal? (negative : Bool) (t : Text) : Option Spelled :=
  let whole := t.takeWhile isDigit
  let rest := t.dropWhile isDigit
  let (fraction, rest) :=
    match rest with
    | .char '.' :: rest => (rest.takeWhile isDigit, rest.dropWhile isDigit)
    | rest => ([], rest)
  if whole.isEmpty && fraction.isEmpty then none
  else
    (readExponent? rest).map fun exponent =>
      .decimal negative (readNatural (whole ++ fraction)) (exponent - fraction.length)

/-- The number that a text without blanks spells. `lower` makes letters comparable with those of
the names of infinity and of no number. -/
def readRealBy? (lower : Point → Point) (t : Text) : Option Spelled :=
  let (negative, unsigned) := splitSign t
  let name := unsigned.map lower
  if name = "inf" ∨ name = "infinity" then some (.infinity negative)
  else if name = "nan" then some .nan
  else readDecimal? negative unsigned

/-- The lower-case form of an ASCII letter. -/
def lowerLetter : Point → Point
  | .char c => .char c.toLower
  | .stray low => .stray low

/-- The number that a text without blanks spells. -/
def readReal? (t : Text) : Option Spelled :=
  readRealBy? lowerLetter t

/-- The double-precision number nearest to `coefficient * 10 ^ exponent`. The two bounds keep the
powers of ten small: beyond them the number is infinite or zero. -/
def nearestDouble (negative : Bool) (coefficient : Nat) (exponent : Int) : Double :=
  let magnitude := (Nat.toDigits 10 coefficient).length + exponent
  if coefficient = 0 then .zero negative
  else if 310 ≤ magnitude then .infinity negative
  else if magnitude ≤ -330 then .zero negative
  else if 0 ≤ exponent then .ofFraction negative (coefficient * Nat.pow 10 exponent.toNat) 1
  else .ofFraction negative coefficient (Nat.pow 10 (-exponent).toNat)

/-- The double-precision number nearest to a spelled number. -/
def Spelled.toDouble : Spelled → Double
  | nan => .nan
  | infinity negative => .infinity negative
  | decimal negative coefficient exponent => nearestDouble negative coefficient exponent

end PropertyList.Numeral
