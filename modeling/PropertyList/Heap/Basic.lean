import PropertyList.Dict

/-!
# Heaps of counted objects

Strings, dictionaries and arrays are objects that share their parts. Each object counts the
references to it and starts with one. Whoever holds a reference may give it back, and giving back
the last one destroys the object, which then gives back its references to its parts
(`PropertyList.Heap.Release`).

An object is named by the number of objects allocated before it. Destroyed objects stay in the
heap: a destroyed string keeps its value, and a destroyed container is empty. A number that has
not been handed out stands for a destroyed string.

## Main definitions

* `ObjectId`, `Content`, `Object`, `Heap`
* `HeapM`, the operations on a heap, which fail with a `Misuse` when they meet a destroyed object
* `Heap.allocate`, `Heap.retain`, `Heap.add`, `Heap.push`
-/

namespace PropertyList

/-- The name of an object. -/
abbrev ObjectId := Nat

/-- The variants of objects. -/
inductive ObjectKind where
  | string
  | dict
  | array
  deriving DecidableEq, Repr

/-- The word for a variant. -/
def ObjectKind.word : ObjectKind → Text
  | string => "string"
  | dict => "dict"
  | array => "array"

/-- The word for a variant in capitals. -/
def ObjectKind.label : ObjectKind → Text
  | string => "STRING"
  | dict => "DICT"
  | array => "ARRAY"

/-- What an object holds. -/
inductive Content where
  | string (value : Text)
  | dict (entries : Dict ObjectId)
  /-- An array, with its items in reverse order. -/
  | array (reversed : List ObjectId)
  deriving DecidableEq, Repr

namespace Content

/-- The variant of an object with this content. -/
def kind : Content → ObjectKind
  | string _ => .string
  | dict _ => .dict
  | array _ => .array

/-- The parts that an object holds references to, with repetitions. -/
def parts : Content → List ObjectId
  | string _ => []
  | dict d => d.values
  | array reversed => reversed

end Content

/-- An object. -/
structure Object where
  /-- The number of references to the object. The object is destroyed when there are none. -/
  refs : Nat
  content : Content
  deriving DecidableEq, Repr

/-- What a number that has not been handed out stands for. -/
def Object.absent : Object := ⟨0, .string []⟩

/-- The objects allocated so far and the number of those that are in use. -/
structure Heap where
  objects : Array Object
  live : Nat
  deriving DecidableEq, Repr

/-- The two operations on the references to an object. -/
inductive RefOperation where
  | retain
  | release
  deriving DecidableEq, Repr

/-- An operation on the references to a destroyed object. -/
structure Misuse where
  operation : RefOperation
  kind : ObjectKind
  deriving DecidableEq, Repr

/-- The message of a misuse. -/
def Misuse.message (m : Misuse) : Text :=
  (match m.operation with
    | .retain => ("ref" : Text)
    | .release => "unref") ++ "() on destroyed " ++ m.kind.label ++ " object"

/-- An operation on a heap. One that fails may have changed the heap before. -/
abbrev HeapM := EStateM Misuse Heap

namespace Heap

/-- The heap without objects. -/
def empty : Heap := ⟨#[], 0⟩

/-- The object with a name. -/
def object (h : Heap) (id : ObjectId) : Object :=
  h.objects.getD id .absent

/-- The variant of an object. -/
def kind (h : Heap) (id : ObjectId) : ObjectKind :=
  (h.object id).content.kind

/-- Whether an object has been destroyed. -/
def destroyed (h : Heap) (id : ObjectId) : Bool :=
  (h.object id).refs == 0

/-- The value of a string, and nothing for other objects. -/
def string? (h : Heap) (id : ObjectId) : Option Text :=
  match (h.object id).content with
  | .string value => some value
  | .dict _ | .array _ => none

/-- The entries of a dictionary, and nothing for other objects. -/
def dict? (h : Heap) (id : ObjectId) : Option (Dict ObjectId) :=
  match (h.object id).content with
  | .dict entries => some entries
  | .string _ | .array _ => none

/-- The items of an array, and nothing for other objects. -/
def array? (h : Heap) (id : ObjectId) : Option (List ObjectId) :=
  match (h.object id).content with
  | .array reversed => some reversed.reverse
  | .string _ | .dict _ => none

/-- The heap with another object under a name. -/
def set (h : Heap) (id : ObjectId) (o : Object) : Heap :=
  { h with objects := h.objects.setIfInBounds id o }

/-- The heap with another content in an object. -/
def setContent (h : Heap) (id : ObjectId) (content : Content) : Heap :=
  h.set id { h.object id with content }

/-- The heap with a new object, to which there is one reference. -/
def insert (h : Heap) (content : Content) : Heap :=
  ⟨h.objects.push ⟨1, content⟩, h.live + 1⟩

/-- A new object. -/
def allocate (content : Content) : HeapM ObjectId := fun h =>
  .ok h.objects.size (h.insert content)

/-- Takes a reference to an object. -/
def retain (id : ObjectId) : HeapM Unit := fun h =>
  let o := h.object id
  if o.refs = 0 then .error ⟨.retain, o.content.kind⟩ h
  else .ok () (h.set id { o with refs := o.refs + 1 })

/-- Adds an entry to a dictionary, which takes a reference to the value, and tells whether it did.
A key that is present is refused. -/
def add (dict : ObjectId) (key : Text) (value : ObjectId) : HeapM Bool := do
  match (← get).dict? dict with
  | none => return false
  | some entries =>
    if entries.contains key then return false
    retain value
    modify fun h => h.setContent dict (.dict (entries.add key value))
    return true

/-- Appends an item to an array, which takes a reference to it. -/
def push (array : ObjectId) (item : ObjectId) : HeapM Unit := do
  match ((← get).object array).content with
  | .string _ | .dict _ => return
  | .array reversed =>
    retain item
    modify fun h => h.setContent array (.array (item :: reversed))

end Heap

end PropertyList
