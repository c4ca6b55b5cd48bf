import PropertyList.Text.Encoding

/-!
# Dictionaries

A dictionary maps texts to values. It keeps its entries in the order in which they were added,
which is the order in which they are released, and it keeps its keys in the order in which they
are read: ascending by their bytes, and in the order of adding where the bytes are equal. Two keys
are the same key when they are the same text, point by point.

## Main definitions

* `Dict`, `Dict.add`, `Dict.find?`
* `Dict.toList`, the entries in the order of reading
-/

namespace PropertyList

/-- A mapping from texts to values. -/
structure Dict (α : Type) where
  /-- The entries in the order of adding. -/
  entries : List (Text × α)
  /-- The keys in the order of reading. -/
  keys : List Text
  deriving DecidableEq, Repr

/-- Inserts a key behind all keys whose bytes do not come after its own. -/
def insertKey (key : Text) : List Text → List Text
  | [] => [key]
  | k :: ks => if key.precedes k then key :: k :: ks else k :: insertKey key ks

namespace Dict

variable {α : Type}

/-- The dictionary without entries. -/
def empty : Dict α := ⟨[], []⟩

/-- The value under a key. -/
def find? (d : Dict α) (key : Text) : Option α :=
  d.entries.lookup key

/-- Whether a key is present. -/
def contains (d : Dict α) (key : Text) : Bool :=
  (d.find? key).isSome

/-- The number of entries. -/
def size (d : Dict α) : Nat :=
  d.keys.length

/-- The dictionary with an entry added. The key is to be a new one. -/
def add (d : Dict α) (key : Text) (value : α) : Dict α :=
  ⟨d.entries ++ [(key, value)], insertKey key d.keys⟩

/-- The values in the order of adding. -/
def values (d : Dict α) : List α :=
  d.entries.map (·.2)

/-- The entries in the order of reading. -/
def toList (d : Dict α) : List (Text × α) :=
  d.keys.filterMap fun key => (d.find? key).map fun value => (key, value)

/-- Visits the entries in the order of reading up to the first that `visit` turns down. The
result lists the entries visited, and tells whether none was turned down. -/
def visit (d : Dict α) (visit : Text → α → Bool) : List (Text × α) × Bool :=
  go d.toList
where
  go : List (Text × α) → List (Text × α) × Bool
    | [] => ([], true)
    | (key, value) :: rest =>
      if visit key value then ((key, value) :: (go rest).1, (go rest).2)
      else ([(key, value)], false)

end Dict

end PropertyList
