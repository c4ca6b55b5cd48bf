/-!
# Double-precision numbers

A number of the binary64 format is told apart from the others by its sign and its *rank*: the
non-negative numbers in ascending order have the ranks 0, 1, 2 and so on up to the rank of
infinity. Ranks are what the bits without the sign bit spell. Everything is computed exactly with
natural numbers, on the scale on which the least positive number is 1.

## Main definitions

* `Double`, `Double.ofInt?`
* `rankValue`, the number of a rank on that scale
* `nearestRank`, which rounds a fraction to the nearest rank, and to the even one of two
* `Double.compareInt`, `Double.truncate`

## Main results

* `nearestRank_le`: no fraction is rounded beyond infinity
-/

namespace PropertyList

/-- The rank of infinity. -/
def infinityRank : Nat := 0x7FF0000000000000

/-- A double-precision number. -/
inductive Double where
  | nan
  /-- The number with the given rank, negated if `negative` holds. -/
  | signed (negative : Bool) (rank : Fin (infinityRank + 1))
  deriving DecidableEq, Repr

/-- The binary logarithm of the scale: multiplied by `2 ^ 1074`, every finite number is whole. -/
def scaleBits : Nat := 1074

/-- Significands are less than `2 ^ 52`. -/
def significandBound : Nat := 0x10000000000000

/-- The number with the rank `r` on the scale. Infinity counts as the next power of two. -/
def rankValue (r : Nat) : Nat :=
  if r < significandBound then r
  else (significandBound + r % significandBound) * Nat.pow 2 (r / significandBound - 1)

/-- The greatest rank, possibly beyond infinity, whose number is at most `n` on the scale. -/
def rankBelow (n : Nat) : Nat :=
  if n < 2 * significandBound then n
  else (n.log2 - 52) * significandBound + n / Nat.pow 2 (n.log2 - 52)

/-- The rank nearest to the fraction `num / den`, and the even one of two ranks as near. -/
def nearestRank (num den : Nat) : Nat :=
  let scaled := num * Nat.pow 2 scaleBits
  let r := rankBelow (scaled / den)
  let middle := (rankValue r + rankValue (r + 1)) * den
  let nearest :=
    if 2 * scaled < middle then r
    else if middle < 2 * scaled then r + 1
    else r + r % 2
  min nearest infinityRank

theorem nearestRank_le (num den : Nat) : nearestRank num den ≤ infinityRank :=
  Nat.min_le_right _ _

namespace Double

/-- The number nearest to a fraction, negated if `negative` holds. -/
def ofFraction (negative : Bool) (num den : Nat) : Double :=
  .signed negative ⟨nearestRank num den, Nat.lt_succ_of_le (nearestRank_le num den)⟩

/-- Zero, negated if `negative` holds. -/
def zero (negative : Bool) : Double := .signed negative 0

/-- Infinity, negated if `negative` holds. -/
def infinity (negative : Bool) : Double := .signed negative ⟨infinityRank, Nat.lt_succ_self _⟩

/-- Whether a number is neither infinite nor no number. -/
def isFinite : Double → Bool
  | nan => false
  | signed _ rank => rank.val < infinityRank

/-- Whether a number is zero of either sign. -/
def isZero : Double → Bool
  | nan => false
  | signed _ rank => rank.val == 0

/-- The number nearest to an integer, unless that is infinite. -/
def ofInt? (n : Int) : Option Double :=
  let x := ofFraction (n < 0) n.natAbs 1
  if x.isFinite then some x else none

/-- The integer between zero and a finite number that is nearest to the number. -/
def truncate : Double → Int
  | nan => 0
  | signed negative rank =>
    let n : Int := (rankValue rank.val / Nat.pow 2 scaleBits : Nat)
    if negative then -n else n

/-- How a number compares with an integer. Nothing compares with no number. -/
def compareInt : Double → Int → Option Ordering
  | nan, _ => none
  | signed negative rank, n =>
    if rank.val = infinityRank then some (if negative then .lt else .gt)
    else
      let value : Int := rankValue rank.val
      some (compare (if negative then -value else value) (n * Nat.pow 2 scaleBits))

end Double

end PropertyList
