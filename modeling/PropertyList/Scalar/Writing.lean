import PropertyList.Scalar.Basic
import PropertyList.Number.Typed

/-!
# Writing scalars

Every value is written in one way. Integers have no leading zeros and no plus sign, colours have
lower-case digits, real numbers have the fewest digits that read back, and truth values and
enumerations have the first name of their number.

A field may hold a value of any kind, and what converts to its type is written as well: a truth
value is the integer 0 or 1, a real number is cut down to an integer, and everything is a truth
value.

## Main definitions

* `Scalar.write`, the text that a value is written as
-/

namespace PropertyList.Scalar

/-- Refuses a value that is no number from `low` to `high`. -/
def checkRange (s : Store) (type : Text) (low high : Int) (v : Value) : Except Failure Unit :=
  match v.compareInt? low, v.compareInt? high with
  | some fromLow, some fromHigh =>
    if fromLow.any (·.isGE) && fromHigh.any (·.isLE) then .ok ()
    else .error (.encode (.outOfRange type (s.snapshot v).display) none)
  | _, _ => .error (.kind (.notComparable (v.kindName s)))

/-- The integer that a number is cut down to. -/
def toInteger : Value → Int
  | .double x => x.truncate
  | v => v.int?.getD 0

/-- Writes an integer from `low` to `high`. -/
def writeInteger (s : Store) (type : Text) (low high : Int) (v : Value) : Except Failure Text := do
  checkRange s type low high v
  return .ofInt (toInteger v)

/-- The double-precision number that a value is converted to. A text is read as a number. -/
def toDouble (s : Store) (v : Value) : Except Failure Double :=
  match v with
  | .double x => .ok x
  | .text t =>
    match Numeral.typedReal? t with
    | some spelled => .ok spelled.toDouble
    | none => .error (.number (.notReal t))
  | v =>
    match v.int? with
    | none => .error (.kind (.notReal (v.kindName s)))
    | some n =>
      match Double.ofInt? n with
      | some x => .ok x
      | none => .error .overflow

/-- Writes a colour. -/
def writeArgb32 (s : Store) (v : Value) : Except Failure Text := do
  checkRange s "argb32" 0 (unsignedMax 32) v
  match v.int? with
  | some n => return colourTag ++ .ofHex 8 n.toNat
  | none => throw (.number .notHexadecimal)

/-- Writes a string. Only a text can be a string, as byte strings are no values (see `Value`). -/
def writeText (s : Store) : Value → Except Failure Text
  | .text t => .ok t
  | v => .error (.kind (.notText (v.kindName s)))

/-- Writes a string. Null stands for a missing one. -/
def writeString (s : Store) (v : Value) : Except Failure Text :=
  if v.isNull then .error (.encode (.missing "string") none) else writeText s v

/-- The text that a value is written as. A missing `charbuf` is written as the empty string, and
its length is not looked at. -/
def write (type : ScalarType) (s : Store) (v : Value) : Except Failure Text :=
  match type with
  | .uint64 => writeInteger s "uint64" 0 (unsignedMax 64) v
  | .int64 => writeInteger s "int64" int64Min int64Max v
  | .double => Double.toText <$> toDouble s v
  | .argb32 => writeArgb32 s v
  | .bool => boolTable.name s (.int (if v.isTrue s then 1 else 0))
  | .enum table => table.name s v
  | .string => writeString s v
  | .charbuf _ => writeString s (if v.isNull then .text [] else v)

end PropertyList.Scalar
