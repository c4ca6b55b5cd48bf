import PropertyList.Record.Value

/-!
# Stores

A store holds what values refer to: the objects of a heap, and lists. A list can be changed in
place, and every value that refers to it sees the change. A list is named by the number of lists
made before it, and it is there for good. No list is part of itself.

What a value is worth to those who use it depends on the store: whether it counts as true, what it
consists of and by which name messages call its kind.

## Main definitions

* `Store`, `Store.newList`, `Store.append`, `Store.setItem`
* `Value.isTrue`, `Value.items?`, `Value.kindName`
* `Literal`, a value written down, and `Literal.place`, which makes it
-/

namespace PropertyList

/-- The objects and the lists that values refer to. -/
structure Store where
  heap : Heap
  lists : Array (Array Value)

namespace Store

/-- The store without objects and lists. -/
def empty : Store := ⟨.empty, #[]⟩

/-- The items of a list. -/
def items (s : Store) (id : ListId) : Array Value :=
  s.lists.getD id #[]

/-- Makes a list. -/
def newList (s : Store) (items : Array Value) : ListId × Store :=
  (s.lists.size, { s with lists := s.lists.push items })

/-- Appends an item to a list. -/
def append (s : Store) (id : ListId) (item : Value) : Store :=
  { s with lists := s.lists.modify id (·.push item) }

/-- The item of a list with a number, or null where there is none. -/
def item (s : Store) (id : ListId) (i : Nat) : Value :=
  (s.items id).getD i .null

/-- Puts another item in the place of the one with a number. -/
def setItem (s : Store) (id : ListId) (i : Nat) (item : Value) : Store :=
  { s with lists := s.lists.modify id (·.setIfInBounds i item) }

end Store

namespace Value

/-- What a value consists of: the items of a list or an array, the points of a text, the keys of a
dictionary. -/
def items? (s : Store) : Value → Option (List Value)
  | list id => some (s.items id).toList
  | text t => some (t.map fun p => .text [p])
  | object id =>
    match (s.heap.object id).content with
    | .string _ => none
    | .dict entries => some (entries.keys.map .text)
    | .array reversed => some (reversed.reverse.map .object)
  | _ => none

/-- Whether a value counts as true. Null, zero and everything empty does not. -/
def isTrue (s : Store) : Value → Bool
  | null => false
  | bool b => b
  | int n => n != 0
  | double x => !x.isZero
  | text t => !t.isEmpty
  | list id => !(s.items id).isEmpty
  | record _ => true
  | object id =>
    match (s.heap.object id).content with
    | .string _ => true
    | .dict entries => entries.size != 0
    | .array reversed => !reversed.isEmpty

/-- The name by which messages call the kind of a value. -/
def kindName (s : Store) : Value → Text
  | null => "NoneType"
  | bool _ => "bool"
  | int _ => "int"
  | double _ => "float"
  | text _ => "str"
  | list _ => "list"
  | record _ => "Record"
  | object id =>
    match s.heap.kind id with
    | .string => "PlistString"
    | .dict => "PlistDict"
    | .array => "PlistArray"

end Value

/-- A value written down. Making it gives a new value every time. -/
inductive Literal where
  | null
  | bool (b : Bool)
  | int (n : Int)
  | double (x : Double)
  | text (t : Text)
  | list (items : List Literal)
  deriving Inhabited

namespace Literal

mutual

/-- Makes the value that is written down, with new lists. -/
def place (s : Store) : Literal → Value × Store
  | null => (.null, s)
  | bool b => (.bool b, s)
  | int n => (.int n, s)
  | double x => (.double x, s)
  | text t => (.text t, s)
  | list literals =>
    let (items, s) := placeItems s #[] literals
    let (id, s) := s.newList items
    (.list id, s)

/-- Makes the items of a list and puts them behind those made before. -/
def placeItems (s : Store) (made : Array Value) : List Literal → Array Value × Store
  | [] => (made, s)
  | l :: ls =>
    let (item, s) := l.place s
    placeItems s (made.push item) ls

end

end Literal

end PropertyList
