import PropertyList.Record.Session
import PropertyList.Scalar.Reading
import PropertyList.Schema.Field

/-!
# Initial values

Before a record is decoded, every field gives its attribute the initial value and marks its key as
absent. A `charbuf` field without an initial value keeps a value that is there. A field with
fields of its own starts with a new record, and new records have no attributes, whatever the
field.

## Main definitions

* `Field.initialise`, `Field.initialiseAll`
-/

namespace PropertyList.Field

open SessionM

/-- Gives the attribute of a scalar its initial value. -/
def initialiseScalar (slot : Slot) (type : ScalarType) (default : Value) : SessionM Unit := do
  match type with
  | .charbuf length =>
    match default with
    | .null =>
      if (← valueOrNull slot.name).isNull then
        setAttribute slot.name (.text [])
    | .text t =>
      ofExcept ((Scalar.checkLength length t).mapError (Failure.blame slot.key))
      setAttribute slot.name default
    | _ => throw .missingAttribute
  | _ => setAttribute slot.name default

/-- Gives the attribute of a field with callbacks its initial value. -/
def initialiseHandled (slot : Slot) (handler : Handler) : SessionM Unit := do
  match handler.init with
  | some init => setAttribute slot.name (← call (.init slot.name) init)
  | none => return

/-- Marks the key of a field as present or absent, if the record keeps track of it. -/
def mark (slot : Slot) (present : Bool) : SessionM Unit :=
  match slot.tracker? with
  | some tracker => setAttribute tracker (.bool present)
  | none => return

mutual

/-- Gives the attributes of a field their initial values. The record that a field with fields of
its own starts with is the one without attributes. -/
def initialise : Field → SessionM Unit
  | scalar slot type default => do
    mark slot false
    initialiseScalar slot type default
  | nested slot fields => do
    mark slot false
    modify fun s => { s with calls := s.calls ++ [.create] }
    setAttribute slot.name .emptyRecord
    within slot.name .emptyRecord (initialiseAll fields)
  | array slot handler => do
    mark slot false
    initialiseHandled slot handler.toHandler
  | custom slot handler => do
    mark slot false
    initialiseHandled slot handler.toHandler

/-- Gives the attributes of fields their initial values, field by field. -/
def initialiseAll : List Field → SessionM Unit
  | [] => return
  | f :: fields => do
    f.initialise
    initialiseAll fields

end

end PropertyList.Field
