import PropertyList.Schema.Field

/-!
# Declaring fields and descriptors

A declaration lists everything that a field may be given. It makes a field when it has what the
type of the field needs. A descriptor is a list of fields with different keys at every level. It says
nothing about how a record is made: a new record has no attributes.

## Main definitions

* `Declaration`, `Declaration.field`
* `Descriptor`, `Descriptor.ofFields`
* `SchemaError`
-/

namespace PropertyList

/-- Why a declaration makes no field, or a list of fields no descriptor. -/
inductive SchemaError where
  | emptyKey
  | missingTable (key : Text)
  | missingLength (key : Text)
  | missingDescriptor (key : Text)
  | missingDecoder (key : Text)
  | duplicateKeys (keys : List Text)
  deriving DecidableEq, Repr

/-- The wording of a schema error. -/
def SchemaError.message : SchemaError → Text
  | emptyKey => "descriptor key must not be empty"
  | missingTable key => "enum field " ++ key.display ++ " needs an enum table"
  | missingLength key => "charbuf field " ++ key.display ++ " needs a length"
  | missingDescriptor key => "dict field " ++ key.display ++ " needs a descriptor"
  | missingDecoder key => "field " ++ key.display ++ " needs a decode callback"
  | duplicateKeys keys =>
    "duplicate keys in descriptor: [" ++ Text.join ", " (keys.map Text.display) ++ "]"

/-- A list of fields with different keys. Records are made without attributes, whatever their
descriptor, and get them from its fields. -/
structure Descriptor where
  fields : List Field
  nodup_keys : (fields.map Field.key).Nodup
  /-- The fields of the records in a record have different keys as well. -/
  distinctKeys : Field.AllEvery Field.DistinctKeys fields

namespace Descriptor

/-- The keys of the fields. -/
def keys (d : Descriptor) : List Text :=
  d.fields.map Field.key

/-- The descriptor with the given fields. Fields that have been declared contain no record whose keys
are not different (`Declaration.distinctKeys_of_field`), so the keys at fault are their own. -/
def ofFields (fields : List Field) : Except SchemaError Descriptor :=
  if h : (fields.map Field.key).Nodup ∧ Field.AllEvery Field.DistinctKeys fields then
    .ok ⟨fields, h.1, h.2⟩
  else .error (.duplicateKeys (fields.map Field.key))

end Descriptor

/-- What a field is made from. -/
structure Declaration where
  type : FieldType
  slot : Slot
  default : Value
  table : EnumTable
  descriptor : Option Descriptor
  array : Option ArrayHandler
  custom : Option CustomHandler

/-- The initial value of an attribute whose field does not say otherwise. -/
def FieldType.usualDefault : FieldType → Value
  | uint64 | int64 | argb32 | enum => .int 0
  | double => .double (.zero false)
  | bool => .bool false
  | string | charbuf | dict | array | custom => .null

/-- The field that a declaration makes. -/
def Declaration.field (d : Declaration) : Except SchemaError Field :=
  let key := d.slot.key
  let scalar (type : ScalarType) : Except SchemaError Field := .ok (.scalar d.slot type d.default)
  if key.isEmpty then .error .emptyKey
  else
    match d.type with
    | .uint64 => scalar .uint64
    | .int64 => scalar .int64
    | .double => scalar .double
    | .argb32 => scalar .argb32
    | .bool => scalar .bool
    | .enum => if d.table.isEmpty then .error (.missingTable key) else scalar (.enum d.table)
    | .string => scalar .string
    | .charbuf =>
      if d.slot.length ≤ 0 then .error (.missingLength key) else scalar (.charbuf d.slot.length)
    | .dict =>
      match d.descriptor with
      | some descriptor => .ok (.nested d.slot descriptor.fields)
      | none => .error (.missingDescriptor key)
    | .array =>
      match d.array with
      | some handler => .ok (.array d.slot handler)
      | none => .error (.missingDecoder key)
    | .custom =>
      match d.custom with
      | some handler => .ok (.custom d.slot handler)
      | none => .error (.missingDecoder key)

end PropertyList
