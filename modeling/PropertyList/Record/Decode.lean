import PropertyList.Record.Initial
import PropertyList.Record.Release
import PropertyList.Schema.Declaration

/-!
# Decoding dictionaries into records

Decoding gives a record its initial values and then, field by field, the values of the keys that
the dictionary has. Keys that no field names are passed over. The first failure ends it: the
record is released, and the failure names the innermost field at fault.

## Main definitions

* `Field.decodeAll`
* `Descriptor.decode`, decoding into the record of the session or a new one
-/

namespace PropertyList

namespace Field

open SessionM

/-- Decodes the items of an array one after the other. -/
def decodeItems (name : String) (handler : ArrayHandler) :
    List ObjectId → Nat → Value → SessionM Value
  | [], _, value => return value
  | item :: items, i, value => do
    decodeItems name handler items (i + 1) (← call (.decode name) (handler.decodeItem item i value))

/-- Refuses an object of the wrong variant. -/
def wrongKind {α : Type} (expected : ObjectKind) (id : ObjectId) : SessionM α := do
  throw (.decode (.wrongKind expected ((← heap).kind id)) none)

/-- Performs the decoding of a field and marks its key as present. On a fault of the data the key
is marked as absent and the field is named, unless a field inside it is at fault. -/
def decodeMarked (slot : Slot) (decoding : SessionM Unit) : SessionM Unit := do
  try
    decoding
  catch failure =>
    if failure.isDecodeFault then
      mark slot false
      throw (failure.blame slot.key)
    else throw failure
  mark slot true

/-- Decodes the object under the key of a field, if the dictionary has one. -/
def decodeKey (slot : Slot) (dict : ObjectId) (decoding : ObjectId → SessionM Unit) :
    SessionM Unit := do
  match ((← heap).dict? dict).bind (·.find? slot.key) with
  | some id => decodeMarked slot (decoding id)
  | none =>
    if slot.required then throw (.decode (.missingKey slot.key) (some slot.key))

mutual

/-- Decodes the object under the key of a field into the attribute of the field. -/
def decode (dict : ObjectId) : Field → SessionM Unit
  | scalar slot type _ =>
    decodeKey slot dict fun id => do
      setAttribute slot.name (← ofExcept (Scalar.decode type (← heap) id))
  | nested slot fields =>
    decodeKey slot dict fun id => do
      if (← heap).kind id = .dict then
        within slot.name (← valueOf slot.name) (decodeAll id fields)
      else wrongKind .dict id
  | array slot handler =>
    decodeKey slot dict fun id => do
      match (← heap).array? id with
      | none => wrongKind .array id
      | some items =>
        let value ← valueOrNull slot.name
        setAttribute slot.name (← decodeItems slot.name handler items 0 value)
  | custom slot handler =>
    decodeKey slot dict fun id => do
      let value ← valueOrNull slot.name
      setAttribute slot.name
        (← call (.decode slot.name) (handler.decode id value))

/-- Decodes the objects under the keys of fields, field by field. -/
def decodeAll (dict : ObjectId) : List Field → SessionM Unit
  | [] => return
  | f :: fields => do
    f.decode dict
    decodeAll dict fields

end

end Field

/-- Decodes a dictionary into the record of the session, or into a new one if `fresh` holds. -/
def Descriptor.decode (d : Descriptor) (dict : ObjectId) (fresh : Bool) : SessionM Unit := do
  if (← SessionM.heap).kind dict ≠ .dict then Field.wrongKind .dict dict
  if fresh then SessionM.create
  try
    Field.initialiseAll d.fields
    Field.decodeAll dict d.fields
  catch failure =>
    Field.releaseAll d.fields
    throw failure

/-- Gives the record of the session its initial values. -/
def Descriptor.initialise (d : Descriptor) : SessionM Unit :=
  Field.initialiseAll d.fields

/-- Releases the record of the session. -/
def Descriptor.release (d : Descriptor) : SessionM Unit :=
  Field.releaseAll d.fields

end PropertyList
