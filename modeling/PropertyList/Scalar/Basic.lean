import PropertyList.Scalar.EnumTable

/-!
# Scalar types

A scalar value is a string in a document. Its type says which strings are accepted, what they
stand for (`PropertyList.Scalar.Reading`), and which string a value is written as
(`PropertyList.Scalar.Writing`).

## Main definitions

* `ScalarType`
-/

namespace PropertyList

/-- The scalar types. A `charbuf` is a string that fits a buffer of a length in bytes. -/
inductive ScalarType where
  | uint64
  | int64
  | double
  | argb32
  | bool
  | enum (table : EnumTable)
  | string
  | charbuf (length : Int)
  deriving DecidableEq, Repr

namespace Scalar

/-- The greatest integer of `bits` bits without a sign. -/
def unsignedMax (bits : Nat) : Int := Nat.pow 2 bits - 1

/-- The least 64-bit integer with a sign. -/
def int64Min : Int := -0x8000000000000000

/-- The greatest 64-bit integer with a sign. -/
def int64Max : Int := 0x7FFFFFFFFFFFFFFF

/-- What stands in front of the digits of a colour. -/
def colourTag : Text := "argb32:"

end Scalar

end PropertyList
