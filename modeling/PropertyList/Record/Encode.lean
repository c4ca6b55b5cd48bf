import PropertyList.Heap.Release
import PropertyList.Record.Callback
import PropertyList.Scalar.Writing
import PropertyList.Schema.Declaration

/-!
# Encoding records as dictionaries

Encoding makes a dictionary with the value of every field that is not marked as absent. It fails
at the first field whose value cannot be encoded; the failure names the innermost such field, and
the objects made by then are released.

## Main definitions

* `Field.encode`, `Field.encodeAll`
* `Descriptor.encode`
-/

namespace PropertyList

namespace Field

open StoreM

/-- The value of an attribute. -/
def encodedAttribute (record : Value) (name : String) : StoreM Value :=
  match record.attribute? name with
  | some value => return value
  | none => throw .missingAttribute

/-- Whether a field is left out because its key is marked as absent. -/
def isMarkedAbsent (slot : Slot) (record : Value) : StoreM Bool := do
  match slot.tracker? with
  | some tracker => return !(← encodedAttribute record tracker).isTrue (← get)
  | none => return false

/-- A string for a scalar. -/
def encodeScalar (type : ScalarType) (value : Value) : StoreM ObjectId := do
  let t ← ofExcept (Scalar.write type (← get) value)
  onHeap (Heap.allocate (.string t))

/-- An object for the value of a field with callbacks. -/
def encodeHandled (slot : Slot) (handler : Handler) (value : Value) : StoreM ObjectId :=
  match handler.encode with
  | some encode => encode value
  | none => throw (.encode (.noEncoder slot.key) (some slot.key))

/-- Adds a new object to a dictionary, which is then the only one to hold it. -/
def addNew (dict : ObjectId) (key : Text) (value : ObjectId) : StoreM Unit := do
  try
    unless ← onHeap (Heap.add dict key value) do
      throw (.encode (.duplicateKey key) (some key))
  finally
    onHeap (Heap.release value)

/-- Adds the value of a field to a dictionary, with `encoding` making an object for it. A failure
names the field, unless a field inside it is named, and the dictionary is released. -/
def addEncoded (slot : Slot) (dict : ObjectId) (record : Value)
    (encoding : Value → StoreM ObjectId) : StoreM Unit := do
  try
    unless ← isMarkedAbsent slot record do
      addNew dict slot.key (← encoding (← encodedAttribute record slot.name))
  catch failure =>
    onHeap (Heap.release dict)
    throw (failure.blame slot.key)

mutual

/-- Adds the value of a field to a dictionary. -/
def encode (dict : ObjectId) (record : Value) : Field → StoreM Unit
  | scalar slot type _ => addEncoded slot dict record (encodeScalar type)
  | nested slot fields =>
    addEncoded slot dict record fun value => do
      let inner ← onHeap (Heap.allocate (.dict .empty))
      encodeAll inner value fields
      return inner
  | array slot handler => addEncoded slot dict record (encodeHandled slot handler.toHandler)
  | custom slot handler => addEncoded slot dict record (encodeHandled slot handler.toHandler)

/-- Adds the values of fields to a dictionary, field by field. -/
def encodeAll (dict : ObjectId) (record : Value) : List Field → StoreM Unit
  | [] => return
  | f :: fields => do
    f.encode dict record
    encodeAll dict record fields

end

end Field

/-- A dictionary for a record. -/
def Descriptor.encode (d : Descriptor) (record : Value) : StoreM ObjectId := do
  let dict ← StoreM.onHeap (Heap.allocate (.dict .empty))
  Field.encodeAll dict record d.fields
  return dict

end PropertyList
