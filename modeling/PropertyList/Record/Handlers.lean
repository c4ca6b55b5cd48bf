import PropertyList.Record.Decode
import PropertyList.Record.Encode

/-!
# Ready-made handlers

Handlers for lists of strings, integers and records, for strings, pairs of integers and shared
objects, and for values that are turned down. None of them makes an initial value.

A list is collected item by item. The first item makes a new list if there is none, and the others
are appended to it in place, so that whatever shares the list shares the items.

## Main definitions

* `ArrayHandler.strings`, `ArrayHandler.integers`, `ArrayHandler.records`, `ArrayHandler.lastString`
* `CustomHandler.string`, `CustomHandler.concatenation`, `CustomHandler.object`,
  `CustomHandler.point`, `CustomHandler.failing`
-/

namespace PropertyList

namespace Callback

/-- The store as the callback finds it. -/
def store : Callback Store := do
  return (← get).store

/-- The callback that makes a value that is written down. -/
def make (l : Literal) : Callback Value := fun ⟨store, calls⟩ =>
  let (value, store) := l.place store
  .ok value ⟨store, calls⟩

/-- The callback that decodes a scalar. -/
def scalar (type : ScalarType) (id : ObjectId) : Callback Value := do
  ofExcept (Scalar.decode type (← store).heap id)

/-- The callback that makes a list. -/
def newList (items : Array Value) : Callback Value := fun ⟨store, calls⟩ =>
  let (id, store) := store.newList items
  .ok (.list id) ⟨store, calls⟩

/-- The callback that puts an item at the end of a list, or into a new list if there is none. -/
def collect (value item : Value) : Callback Value :=
  match value with
  | .null => newList #[item]
  | .list id => fun ⟨store, calls⟩ => .ok (.list id) ⟨store.append id item, calls⟩
  | _ => throw .missingAttribute

end Callback

/-- What a value consists of. A value that is not made of others is a fault. -/
def Value.itemsOrFault (s : Store) (v : Value) : Except Failure (List Value) :=
  match v.items? s with
  | some items => .ok items
  | none => .error (.kind (.notIterable (v.kindName s)))

/-- What a list or a text consists of without the first. No part can be taken of other values. -/
def Value.laterItems (s : Store) : Value → Except Failure (List Value)
  | .list id => .ok ((s.items id).toList.drop 1)
  | .text t => .ok ((t.drop 1).map fun p => .text [p])
  | v => .error (.kind (.notSubscriptable (v.kindName s)))

/-- Appends an object for every value to an array, which is then the only one to hold it. -/
def encodeItems (array : ObjectId) (encode : Value → StoreM ObjectId) : List Value → StoreM Unit
  | [] => return
  | v :: vs => do
    let item ← encode v
    try
      StoreM.onHeap (Heap.push array item)
    finally
      StoreM.onHeap (Heap.release item)
    encodeItems array encode vs

/-- An array with an object for every value that `itemsOf` finds. On a failure the array stays. -/
def encodeList (encode : Value → StoreM ObjectId) (itemsOf : Store → Except Failure (List Value)) :
    StoreM ObjectId := do
  let array ← StoreM.onHeap (Heap.allocate (.array []))
  encodeItems array encode (← ofExcept (itemsOf (← get)))
  return array

/-- An array with an object for every value that `itemsOf` finds in a value that is not missing.
On a failure the array is released. -/
def encodeArray (encode : Value → StoreM ObjectId)
    (itemsOf : Store → Value → Except Failure (List Value)) (v : Value) : StoreM ObjectId := do
  if v.isNull then throw (.encode (.missing "array") none)
  let array ← StoreM.onHeap (Heap.allocate (.array []))
  try
    encodeItems array encode (← ofExcept (itemsOf (← get) v))
  catch failure =>
    StoreM.onHeap (Heap.release array)
    throw failure
  return array

/-- Releasing a value that needs no more than being forgotten. -/
def forget (_ : Value) : Callback Unit := return

namespace ArrayHandler

/-- Collects what `decode` makes of the items in a list. -/
def collecting (decode : ObjectId → Callback Value) (encode : Value → StoreM ObjectId)
    (release : Value → Callback Unit) : ArrayHandler where
  init := none
  release := some release
  encode := some (encodeArray encode Value.itemsOrFault)
  decodeItem id _ value := do
    Callback.collect value (← decode id)

/-- Lists of scalars of a type. -/
def scalars (type : ScalarType) : ArrayHandler :=
  collecting (Callback.scalar type) (Field.encodeScalar type) forget

/-- Lists of texts. -/
def strings : ArrayHandler := scalars .string

/-- Lists of 64-bit integers. -/
def integers : ArrayHandler := scalars .int64

/-- Releases the records that a value consists of, one after the other. Those of a list are changed
in place. -/
def releaseRecords (d : Descriptor) (v : Value) : Callback Unit := do
  let store ← Callback.store
  match v with
  | .list id => (List.range (store.items id).size).forM (SessionM.onItem d.release id)
  | v =>
    (← ofExcept (v.itemsOrFault store)).forM fun item => do
      discard (SessionM.onValue d.release item)

/-- Lists of records. Releasing the list releases the records. -/
def records (d : Descriptor) : ArrayHandler :=
  collecting (fun id => SessionM.onValue (d.decode id true) .null) d.encode (releaseRecords d)

/-- The number and the text of the last item. Each item replaces what was made of the one
before. -/
def lastString : ArrayHandler where
  init := none
  release := some forget
  encode := some (encodeArray (Field.encodeScalar .string) Value.laterItems)
  decodeItem id i _ := do
    Callback.newList #[.int i, ← Callback.scalar .string id]

end ArrayHandler

namespace CustomHandler

/-- A text. -/
def string : CustomHandler where
  init := none
  release := some forget
  encode := some (Field.encodeScalar .string)
  decode id _ := Callback.scalar .string id

/-- The value with a text appended to it. -/
def concatenate (s : Store) (value text : Value) : Except Failure Value :=
  match value, text with
  | .null, text => .ok text
  | .text t, .text u => .ok (.text (t ++ u))
  | .list _, _ => .error (.kind .textToList)
  | value, _ => .error (.kind (.notAppendable (value.kindName s)))

/-- The text that the attribute has, followed by the text of the object. -/
def concatenation : CustomHandler where
  init := none
  release := some forget
  encode := some (Field.encodeScalar .string)
  decode id value := do
    let text ← Callback.scalar .string id
    ofExcept (concatenate (← Callback.store) value text)

/-- A reference to an object. -/
def objectOf (v : Value) : Except Failure ObjectId :=
  match v with
  | .object id => .ok id
  | _ => .error .missingAttribute

/-- The object itself, to which the record holds a reference. -/
def object : CustomHandler where
  init := none
  release := some fun v => Callback.ofStoreM do
    StoreM.onHeap (Heap.release (← ofExcept (objectOf v)))
  encode := some fun v => do
    if v.isNull then throw (.encode (.missing "object") none)
    let id ← ofExcept (objectOf v)
    StoreM.onHeap (Heap.retain id)
    return id
  decode id value := Callback.ofStoreM do
    unless value.isNull do
      StoreM.onHeap (Heap.release (← ofExcept (objectOf value)))
    StoreM.onHeap (Heap.retain id)
    return .object id

/-- Two integers, which are an array of two items in a document. -/
def decodePoint (h : Heap) (id : ObjectId) : Except Failure (Value × Value) :=
  match h.array? id with
  | none => .error (.decode (.wrongKind .array (h.kind id)) none)
  | some [x, y] => do
    return (← Scalar.decode .int64 h x, ← Scalar.decode .int64 h y)
  | some items =>
    .error (.decode (.refused ("expected 2 items, got " ++ .ofNat items.length) none) none)

/-- Two integers. -/
def point : CustomHandler where
  init := none
  release := some forget
  encode := some fun v => encodeList (Field.encodeScalar .int64) fun s => v.itemsOrFault s
  decode id _ := do
    let (x, y) ← ofExcept (decodePoint (← Callback.store).heap id)
    Callback.newList #[x, y]

/-- Values that can be neither decoded nor encoded. -/
def failing (decoding encoding : Failure) : CustomHandler where
  init := none
  release := some forget
  encode := some fun _ => throw encoding
  decode _ _ := throw decoding

end CustomHandler

end PropertyList
