import PropertyList.Record.Callback
import PropertyList.Scalar.Basic

/-!
# Fields of records

A field ties a key of a dictionary to an attribute of a record. It may also name an attribute that
tells whether the key was present. The value under the key is a scalar, a record with fields of
its own, an array or something custom.

A record inside another one is made while the other one gets its initial values, and is then a record
without attributes. Records that come with attributes of their own are not considered.

## Main definitions

* `Slot`, `Field`
* `Field.type`, the word for the type of a field
* `Field.Every`, `Field.AllEvery`, what holds of fields at every level
* `Field.DistinctKeys`
-/

namespace PropertyList

/-- What all fields have in common. -/
structure Slot where
  key : Text
  /-- The name of the attribute. -/
  name : String
  /-- The attribute that tells whether the key was present. -/
  presence : Option String
  required : Bool
  /-- The number of bytes of the buffer behind the attribute, which only `charbuf` fields have. -/
  length : Int

/-- The attribute that tracks whether the key was present. The attribute of the value cannot. -/
def Slot.tracker? (slot : Slot) : Option String :=
  slot.presence.filter (· != slot.name)

/-- A field of a record. -/
inductive Field where
  /-- A scalar, with the value that the attribute has initially. -/
  | scalar (slot : Slot) (type : ScalarType) (default : Value)
  /-- A record with fields of its own. It is made without attributes, and only its fields give it
  some. Keys are read off fields, so the constructor cannot demand that they are different. A
  descriptor demands it, at every level. -/
  | nested (slot : Slot) (fields : List Field)
  | array (slot : Slot) (handler : ArrayHandler)
  | custom (slot : Slot) (handler : CustomHandler)

/-- The types of fields. -/
inductive FieldType where
  | uint64
  | int64
  | double
  | argb32
  | bool
  | enum
  | string
  | charbuf
  | dict
  | array
  | custom
  deriving DecidableEq, Repr

/-- The type of a field with a scalar. -/
def ScalarType.fieldType : ScalarType → FieldType
  | uint64 => .uint64
  | int64 => .int64
  | double => .double
  | argb32 => .argb32
  | bool => .bool
  | enum _ => .enum
  | string => .string
  | charbuf _ => .charbuf

namespace Field

/-- What a field has in common with others. -/
def slot : Field → Slot
  | scalar slot _ _ | nested slot _ | array slot _ | custom slot _ => slot

/-- The key of a field. -/
def key (f : Field) : Text := f.slot.key

/-- The type of a field. -/
def type : Field → FieldType
  | scalar _ type _ => type.fieldType
  | nested _ _ => .dict
  | array _ _ => .array
  | custom _ _ => .custom

/-- The value that the attribute of a field has initially, as far as the field fixes it. -/
def default : Field → Value
  | scalar _ _ default => default
  | nested _ _ | array _ _ | custom _ _ => .null

/-- The names of a field with an enumeration. -/
def table : Field → EnumTable
  | scalar _ (.enum table) _ => table
  | _ => []

/-! ### Every level -/

mutual

/-- Whether a property holds of a field and of all fields at the levels below it. -/
def Every (P : Field → Prop) : Field → Prop
  | scalar slot type default => P (scalar slot type default)
  | nested slot fields => P (nested slot fields) ∧ AllEvery P fields
  | array slot handler => P (array slot handler)
  | custom slot handler => P (custom slot handler)

/-- Whether a property holds of fields and of all fields at the levels below them. -/
def AllEvery (P : Field → Prop) : List Field → Prop
  | [] => True
  | f :: fields => f.Every P ∧ AllEvery P fields

end

mutual

/-- What can be decided of a field can be decided of the fields at the levels below it. -/
def decidableEvery (P : Field → Prop) [DecidablePred P] : (f : Field) → Decidable (f.Every P)
  | scalar slot type default => inferInstanceAs (Decidable (P (scalar slot type default)))
  | nested slot fields =>
    have := decidableAllEvery P fields
    inferInstanceAs (Decidable (P (nested slot fields) ∧ AllEvery P fields))
  | array slot handler => inferInstanceAs (Decidable (P (array slot handler)))
  | custom slot handler => inferInstanceAs (Decidable (P (custom slot handler)))

/-- What can be decided of a field can be decided of fields at every level. -/
def decidableAllEvery (P : Field → Prop) [DecidablePred P] :
    (fields : List Field) → Decidable (AllEvery P fields)
  | [] => isTrue trivial
  | f :: fields =>
    have := decidableEvery P f
    have := decidableAllEvery P fields
    inferInstanceAs (Decidable (f.Every P ∧ AllEvery P fields))

end

instance (P : Field → Prop) [DecidablePred P] : DecidablePred (AllEvery P) :=
  decidableAllEvery P

/-- The fields of a record have different keys. -/
def DistinctKeys : Field → Prop
  | nested _ fields => (fields.map key).Nodup
  | scalar _ _ _ | array _ _ | custom _ _ => True

instance : DecidablePred DistinctKeys
  | nested _ fields => inferInstanceAs (Decidable (fields.map key).Nodup)
  | scalar _ _ _ | array _ _ | custom _ _ => isTrue trivial

end Field

end PropertyList
