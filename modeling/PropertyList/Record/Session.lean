import PropertyList.Record.Callback

/-!
# Working on records

The operations on a record share a session: the record in its present state, the store and the
calls made so far. An operation that fails leaves the session as it has made it by then.

## Main definitions

* `Session`, `SessionM`
* `SessionM.call`, which calls a callback
* `SessionM.within`, which works on the record in an attribute
* `SessionM.onValue`, `SessionM.onItem`, the callbacks that work on records of their own
-/

namespace PropertyList

/-- The state of the work on a record. -/
structure Session where
  record : Value
  store : Store
  /-- The calls made so far, the first one first. -/
  calls : List Call

/-- The work on a record. -/
abbrev SessionM := EStateM Failure Session

namespace SessionM

/-- The heap of the session. -/
def heap : SessionM Heap := do
  return (← get).store.heap

/-- Makes the session go on with a new record. Every descriptor makes its records without
attributes, and what makes them cannot fail. -/
def create : SessionM Unit :=
  modify fun s => { s with record := .emptyRecord, calls := s.calls ++ [.create] }

/-- Gives an attribute of the record a value. -/
def setAttribute (name : String) (value : Value) : SessionM Unit := do
  match (← get).record.setAttribute? name value with
  | some record => modify fun s => { s with record }
  | none => throw .missingAttribute

/-- The value of an attribute of the record. -/
def valueOf (name : String) : SessionM Value := do
  match (← get).record.attribute? name with
  | some value => return value
  | none => throw .missingAttribute

/-- The value of an attribute of the record, or null where there is none. -/
def valueOrNull (name : String) : SessionM Value := do
  return (← get).record.attributeOrNull name

/-- Calls a callback. `note` makes the entry in the list of calls out of those of the callback. -/
def call {α : Type} (note : List Call → Call) (callback : Callback α) : SessionM α :=
  fun ⟨record, store, calls⟩ =>
    match callback ⟨store, []⟩ with
    | .ok result trace => .ok result ⟨record, trace.store, calls ++ [note trace.calls]⟩
    | .error failure trace => .error failure ⟨record, trace.store, calls ++ [note trace.calls]⟩

/-- Puts the value worked on back into its attribute, with a note of the calls made. -/
def rejoin (record : Value) (calls : List Call) (name : String) (inner : Session) : Session :=
  { record := (record.setAttribute? name inner.record).getD record
    store := inner.store
    calls := calls ++ [.within name inner.calls] }

/-- Works on `value`, the value of an attribute of the record. -/
def within (name : String) (value : Value) (work : SessionM Unit) : SessionM Unit :=
  fun ⟨record, store, calls⟩ =>
    match work ⟨value, store, []⟩ with
    | .ok () inner => .ok () (rejoin record calls name inner)
    | .error failure inner => .error failure (rejoin record calls name inner)

/-- The callback that works on a value and gives what becomes of it. -/
def onValue (work : SessionM Unit) (value : Value) : Callback Value := fun ⟨store, calls⟩ =>
  match work ⟨value, store, calls⟩ with
  | .ok () s => .ok s.record ⟨s.store, s.calls⟩
  | .error failure s => .error failure ⟨s.store, s.calls⟩

/-- The callback that works on an item of a list. The item is changed in place, as far as the work
gets. -/
def onItem (work : SessionM Unit) (id : ListId) (i : Nat) : Callback Unit :=
  fun ⟨store, calls⟩ =>
    let back (s : Session) : Trace := ⟨s.store.setItem id i s.record, s.calls⟩
    match work ⟨store.item id i, store, calls⟩ with
    | .ok () s => .ok () (back s)
    | .error failure s => .error failure (back s)

end SessionM

end PropertyList
