import PropertyList.Scalar.Basic

/-!
# Reading scalars

Integers are decimal numerals, those of an `int64` with an optional sign; blanks around them are
accepted. A `double` is a decimal number, infinity or no number, again with blanks around it. An
`argb32` colour is eight hexadecimal digits after a tag. A `bool` and an `enum` are names from a
table. A `charbuf` leaves one byte of its buffer unused.

## Main definitions

* `Scalar.read`, the value that a text stands for
* `Scalar.decode`, the value that an object stands for
-/

namespace PropertyList.Scalar

/-- Whether a point may stand around a number. -/
def isBlank (p : Point) : Bool :=
  p ∈ [.char ' ', .char '\t', .char '\n', .char '\r', .char '\x0b', .char '\x0c']

/-- The text without the blanks around it. -/
def strip (t : Text) : Text :=
  ((t.dropWhile isBlank).reverse.dropWhile isBlank).reverse

/-- The integer with a sign and digits, unless there are too many of them. -/
def convert (negative : Bool) (digits : Text) : Except Failure Int :=
  if digitLimit < digits.length then .error (.number (.tooManyDigits digits.length))
  else .ok (Numeral.integerOf negative digits)

/-- The integer that `numeral?` finds in a text, if it is in the range of its type. -/
def readInteger (type : Text) (low high : Int) (numeral? : Text → Option (Bool × Text))
    (t : Text) : Except Failure Int := do
  match numeral? (strip t) with
  | none => throw (.decode (.malformed type t) none)
  | some (negative, digits) =>
    let n ← convert negative digits
    if low ≤ n ∧ n ≤ high then return n else throw (.decode (.outOfRange type t) none)

/-- Reads an integer of 64 bits without a sign. -/
def readUint64 : Text → Except Failure Int :=
  readInteger "uint64" 0 (unsignedMax 64) fun t =>
    if Numeral.isDigits t then some (false, t) else none

/-- Reads an integer of 64 bits with an optional sign. -/
def readInt64 : Text → Except Failure Int :=
  readInteger "int64" int64Min int64Max Numeral.splitInteger?

/-- The lower-case form of a letter when letters are compared without regard to case. The letter i
with a dot in upper case and without one in lower case count as an i. -/
def foldLetter (p : Point) : Point :=
  if p = .char '\u0130' ∨ p = .char '\u0131' then .char 'i' else Numeral.lowerLetter p

/-- Reads a real number. A name with an unusual i is recognised, and then refused. -/
def readDouble (t : Text) : Except Failure Double :=
  match Numeral.readRealBy? foldLetter (strip t) with
  | none => .error (.decode (.malformed "double" t) none)
  | some _ =>
    match Numeral.readReal? (strip t) with
    | none => .error (.number (.notReal (strip t)))
    | some spelled => .ok spelled.toDouble

/-- The value of a hexadecimal digit. -/
def hexDigit? : Point → Option Nat
  | .char c =>
    if c.isDigit then some (c.toNat - '0'.toNat)
    else if 'a' ≤ c ∧ c ≤ 'f' then some (c.toNat - 'a'.toNat + 10)
    else if 'A' ≤ c ∧ c ≤ 'F' then some (c.toNat - 'A'.toNat + 10)
    else none
  | .stray _ => none

/-- Reads a colour. -/
def readArgb32 (t : Text) : Except Failure Int :=
  let digits := t.drop colourTag.length
  if colourTag.isPrefixOf t ∧ digits.length = 8 ∧ digits.all fun p => (hexDigit? p).isSome then
    .ok (digits.foldl (fun n p => 16 * n + (hexDigit? p).getD 0) 0 : Nat)
  else .error (.decode (.malformed "argb32 color" t) none)

/-- Reads a truth value. -/
def readBool (t : Text) : Except Failure Bool := do
  return (← boolTable.value (some t)) != 0

/-- Refuses a text that does not fit a buffer together with one more byte. -/
def checkLength (length : Int) (t : Text) : Except Failure Unit :=
  if length < t.encode.length + 1 then .error (.decode (.tooLong length t) none) else .ok ()

/-- The value that a text stands for. -/
def read : ScalarType → Text → Except Failure Value
  | .uint64, t => .int <$> readUint64 t
  | .int64, t => .int <$> readInt64 t
  | .double, t => .double <$> readDouble t
  | .argb32, t => .int <$> readArgb32 t
  | .bool, t => .bool <$> readBool t
  | .enum table, t => .int <$> table.value (some t)
  | .string, t => .ok (.text t)
  | .charbuf length, t => do
    checkLength length t
    return .text t

/-- The value of a string. -/
def stringValue (h : Heap) (id : ObjectId) : Except Failure Text :=
  match h.string? id with
  | some t => .ok t
  | none => .error (.decode (.wrongKind .string (h.kind id)) none)

/-- The value that an object stands for. -/
def decode (type : ScalarType) (h : Heap) (id : ObjectId) : Except Failure Value := do
  read type (← stringValue h id)

end PropertyList.Scalar
