import PropertyList.Number.Numeral

/-!
# Shortest numerals

A double-precision number is written with the fewest digits that read back as the same number. Of
several numerals with that many digits the nearest to the number is taken, and the one with the
even last digit where two are as near.

The digits are found on one decimal grid after the other. The grid with `n` digits holds the
multiples of a power of ten between which the number has `n` digits, and if any of them reads back,
so does one of the two neighbours of the number.

## Main definitions

* `shortestDecimal`
* `DecimalLayout`, `Double.layout`, `Double.toText`
-/

namespace PropertyList

/-- The number of digits in front of the point of the number `scaled / 2 ^ scaleBits`, which is not
zero. It is zero or negative for a number below 1, whose digits start that far behind the point. -/
def wholeDigits (scaled : Nat) : Int :=
  let unit := Nat.pow 2 scaleBits
  if unit ≤ scaled then (Nat.toDigits 10 (scaled / unit)).length
  else 1 - (Nat.toDigits 10 ((unit - 1) / scaled)).length

/-- The fraction `scaled / 2 ^ scaleBits` in units of `10 ^ place`. -/
def inUnits (scaled : Nat) (place : Int) : Nat × Nat :=
  if 0 ≤ place then (scaled, Nat.pow 2 scaleBits * Nat.pow 10 place.toNat)
  else (scaled * Nat.pow 10 (-place).toNat, Nat.pow 2 scaleBits)

/-- Whether `coefficient * 10 ^ place` reads as the number with the rank `rank`. -/
def readsAs (rank : Fin (infinityRank + 1)) (place : Int) (coefficient : Nat) : Bool :=
  Numeral.nearestDouble false coefficient place = .signed false rank

/-- The coefficient of `10 ^ place` that is nearest to a number among those that read back. -/
def neighbour? (rank : Fin (infinityRank + 1)) (place : Int) : Option Nat :=
  let (num, den) := inUnits (rankValue rank) place
  let lower := num / den
  let upper := lower + 1
  match readsAs rank place lower, readsAs rank place upper with
  | false, false => none
  | true, false => some lower
  | false, true => some upper
  | true, true =>
    let middle := (lower + upper) * den
    if 2 * num < middle then some lower
    else if middle < 2 * num then some upper
    else some (lower + lower % 2)

/-- The coefficient and the power of ten of a number written with the fewest digits. Seventeen
digits are enough for every number; all digits are taken where they are not. -/
def shortestDecimal (rank : Fin (infinityRank + 1)) : Nat × Int :=
  let places := (List.range 17).map fun n => wholeDigits (rankValue rank) - (n + 1 : Nat)
  let hit := places.findSome? fun place => (neighbour? rank place).map fun c => (c, place)
  hit.getD (rankValue rank * Nat.pow 5 scaleBits, -scaleBits)

/-- How numbers are laid out. -/
structure DecimalLayout where
  /-- The least power of ten whose multiples are written without an exponent. -/
  positionalFrom : Int
  /-- The least power of ten above those. -/
  positionalBelow : Int
  /-- The least number of digits of an exponent. -/
  exponentDigits : Nat
  deriving DecidableEq, Repr

/-- A number and a power of ten with the same product and no zero at the end of the number. -/
def dropZeros (coefficient : Nat) (place : Int) : Nat × Int :=
  if _h : coefficient ≠ 0 ∧ coefficient % 10 = 0 then dropZeros (coefficient / 10) (place + 1)
  else (coefficient, place)

/-- Zeros, as digits. -/
def zeros (n : Int) : List Char :=
  List.replicate n.toNat '0'

/-- The digits of `coefficient * 10 ^ place` with a point and at least one digit on each side. -/
def positional (coefficient : Nat) (place : Int) : List Char :=
  let digits := Nat.toDigits 10 coefficient
  let whole := digits.length + place
  if 0 ≤ place then digits ++ zeros place ++ ['.', '0']
  else if 0 < whole then digits.take whole.toNat ++ '.' :: digits.drop whole.toNat
  else '0' :: '.' :: zeros (-whole) ++ digits

/-- The digits of `coefficient * 10 ^ place` with a point behind the first and an exponent. A single
digit has no point. -/
def scientific (coefficient : Nat) (place : Int) (exponentDigits : Nat) : List Char :=
  let digits := Nat.toDigits 10 coefficient
  let exponent := digits.length + place - 1
  let fraction := digits.drop 1
  digits.take 1 ++ (if fraction.isEmpty then [] else '.' :: fraction)
    ++ 'e' :: (if exponent < 0 then '-' else '+')
    :: (Nat.toDigits 10 exponent.natAbs).leftpad exponentDigits '0'

/-- The digits of `coefficient * 10 ^ place`. -/
def DecimalLayout.format (layout : DecimalLayout) (coefficient : Nat) (place : Int) : List Char :=
  let (coefficient, place) := dropZeros coefficient place
  let exponent := (Nat.toDigits 10 coefficient).length + place - 1
  if layout.positionalFrom ≤ exponent ∧ exponent < layout.positionalBelow then
    positional coefficient place
  else scientific coefficient place layout.exponentDigits

namespace Double

/-- Numbers from `0.0001` up to but not including `1e+16` are written without an exponent, and
exponents have two digits or more. -/
def layout : DecimalLayout := ⟨-4, 16, 2⟩

/-- A number as documents and messages write it. -/
def toText : Double → Text
  | nan => "nan"
  | signed negative rank =>
    let magnitude : Text :=
      if rank.val = infinityRank then "inf"
      else if rank.val = 0 then "0.0"
      else (layout.format (shortestDecimal rank).1 (shortestDecimal rank).2).map .char
    if negative then .char '-' :: magnitude else magnitude

end Double

end PropertyList
