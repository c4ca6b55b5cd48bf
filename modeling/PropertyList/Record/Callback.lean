import PropertyList.Record.Failure
import PropertyList.Record.Store

/-!
# Callbacks and the calls made of them

Fields whose values are neither scalars nor records are left to callbacks: one makes an initial
value, one decodes an object, one encodes a value and one releases a value. A callback works on
the store and may make calls of its own, which it adds to the list of calls. It has no access to
the record that is decoded.

The calls of an operation are kept as a forest: a call stands in front of what was called while it
ran, so the calls of the operation itself can be told from those of its callbacks.

## Main definitions

* `StoreM`, the operations on a store
* `Call`, `Callback`
* `Handler`, `ArrayHandler`, `CustomHandler`
-/

namespace PropertyList

/-- An operation on a store that fails with a failure. One that fails may have changed the store
before. -/
abbrev StoreM := EStateM Failure Store

/-- Performs an operation on the heap of a store. -/
def StoreM.onHeap {α : Type} (operation : HeapM α) : StoreM α := fun ⟨heap, lists⟩ =>
  match operation heap with
  | .ok result heap => .ok result ⟨heap, lists⟩
  | .error misuse heap => .error (.misuse misuse) ⟨heap, lists⟩

/-- A call made while a record is decoded, initialised or released. -/
inductive Call where
  /-- A record is made. -/
  | create
  /-- The initial value of an attribute is made. -/
  | init (name : String) (inner : List Call)
  /-- An object, or an item of an array, is decoded for an attribute. -/
  | decode (name : String) (inner : List Call)
  /-- The value of an attribute is released. The store is the one before the release. -/
  | release (name : String) (value : Value) (store : Store) (inner : List Call)
  /-- Calls are made for the record in an attribute. -/
  | within (name : String) (inner : List Call)

/-- A store and the calls made so far, the first one first. -/
structure Trace where
  store : Store
  calls : List Call

/-- A callback that gives an `α`. -/
abbrev Callback (α : Type) := EStateM Failure Trace α

/-- The callback that performs an operation on the store and makes no calls. -/
def Callback.ofStoreM {α : Type} (operation : StoreM α) : Callback α := fun ⟨store, calls⟩ =>
  match operation store with
  | .ok result store => .ok result ⟨store, calls⟩
  | .error failure store => .error failure ⟨store, calls⟩

/-- The callbacks that arrays and custom values have in common. -/
structure Handler where
  /-- Makes the initial value. Without it the attribute is left as it is. -/
  init : Option (Callback Value)
  /-- Releases a value. Without it the attribute is left as it is. -/
  release : Option (Value → Callback Unit)
  /-- Makes an object for a value. -/
  encode : Option (Value → StoreM ObjectId)

/-- The callbacks of an array. -/
structure ArrayHandler extends Handler where
  /-- Decodes the item with a number, given what was made of the items before it. -/
  decodeItem : ObjectId → Nat → Value → Callback Value

/-- The callbacks of a custom value. -/
structure CustomHandler extends Handler where
  /-- Decodes an object, given the value that the attribute has. -/
  decode : ObjectId → Value → Callback Value

end PropertyList
