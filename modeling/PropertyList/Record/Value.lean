import PropertyList.Heap.View
import PropertyList.Number.Shortest

/-!
# Values of records

A record is a set of named attributes, and its attributes hold values of any kind: numbers, truth
values, texts, lists, records, and objects of a heap. Nothing fixes in advance what an attribute
holds, so everything that reads one is prepared for all kinds.

Byte strings are not among them, so records that hold some are not considered. A string can be made
from a byte string as well, and is then that of the text that the bytes encode.

A record belongs to whatever holds it. Lists and objects are referred to by name, so that several
attributes may share one and see each other's changes (`PropertyList.Record.Store`).

## Main definitions

* `Value`
* `Value.attribute?`, `Value.setAttribute?`
* `Value.compareInt?`
-/

namespace PropertyList

/-- The name of a list. -/
abbrev ListId := Nat

/-- The value of an attribute. There is none for byte strings. -/
inductive Value where
  | null
  | bool (b : Bool)
  | int (n : Int)
  | double (x : Double)
  | text (t : Text)
  | list (id : ListId)
  | record (attributes : List (String × Value))
  | object (id : ObjectId)
  deriving Inhabited

/-- Puts a value under a name, in the place of the one that is there. -/
def setEntry (name : String) (value : Value) : List (String × Value) → List (String × Value)
  | [] => [(name, value)]
  | (n, v) :: entries =>
    if n = name then (name, value) :: entries else (n, v) :: setEntry name value entries

namespace Value

/-- The record without attributes. -/
def emptyRecord : Value := .record []

/-- The value of an attribute. Only records have attributes. -/
def attribute? (v : Value) (name : String) : Option Value :=
  match v with
  | record attributes => attributes.lookup name
  | _ => none

/-- The value of an attribute, or null where there is none. -/
def attributeOrNull (v : Value) (name : String) : Value :=
  (v.attribute? name).getD .null

/-- The record with another value of an attribute. Only records have attributes. -/
def setAttribute? (v : Value) (name : String) (value : Value) : Option Value :=
  match v with
  | record attributes => some (.record (setEntry name value attributes))
  | _ => none

/-- The record without an attribute that it has. -/
def eraseAttribute? (v : Value) (name : String) : Option Value :=
  match v with
  | record attributes =>
    if (attributes.lookup name).isSome then
      some (.record (attributes.filter fun entry => entry.1 != name))
    else none
  | _ => none

/-- Whether a value is null. -/
def isNull : Value → Bool
  | null => true
  | _ => false

/-- The integer that a truth value or an integer stands for. -/
def int? : Value → Option Int
  | bool b => some (if b then 1 else 0)
  | int n => some n
  | _ => none

/-- How a number compares with an integer. The inner option is empty for no number, and the outer
one for what is not of a number's kind. -/
def compareInt? (v : Value) (n : Int) : Option (Option Ordering) :=
  match v with
  | double x => some (x.compareInt n)
  | v => v.int?.map fun m => some (compare m n)

/-- Whether a value is a number equal to an integer. -/
def equalsInt (v : Value) (n : Int) : Bool :=
  v.compareInt? n == some (some .eq)

end Value

end PropertyList
