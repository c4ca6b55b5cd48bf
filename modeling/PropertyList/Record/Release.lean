import PropertyList.Record.Session
import PropertyList.Schema.Field

/-!
# Releasing records

Releasing a record gives up what decoding has stored in it. Strings become null. The values of
fields that have a callback for it are handed to the callback, unless they are null, and become
null as well. Releasing a record again finds null everywhere and does nothing.

## Main definitions

* `Field.release`, `Field.releaseAll`
-/

namespace PropertyList.Field

open SessionM

/-- Releases the value of a field with callbacks. -/
def releaseHandled (slot : Slot) (handler : Handler) : SessionM Unit := do
  match handler.release with
  | none => return
  | some release =>
    let value ← valueOrNull slot.name
    unless value.isNull do
      call (.release slot.name value (← get).store) (release value)
    setAttribute slot.name .null

mutual

/-- Releases what a field has stored. -/
def release : Field → SessionM Unit
  | scalar slot type _ =>
    match type with
    | .string => setAttribute slot.name .null
    | _ => return
  | nested slot fields => do
    let value ← valueOrNull slot.name
    unless value.isNull do
      within slot.name value (releaseAll fields)
  | array slot handler => releaseHandled slot handler.toHandler
  | custom slot handler => releaseHandled slot handler.toHandler

/-- Releases what fields have stored, field by field. -/
def releaseAll : List Field → SessionM Unit
  | [] => return
  | f :: fields => do
    f.release
    releaseAll fields

end

end PropertyList.Field
