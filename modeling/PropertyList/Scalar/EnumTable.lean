import PropertyList.Record.Failure
import PropertyList.Record.Snapshot

/-!
# Tables of names

An enumeration is a list of names with their numbers. A name stands for the number of its first
entry, and a number is written as the name of its first entry.

## Main definitions

* `EnumTable`, `EnumTable.value`, `EnumTable.name`
* `boolTable`, the names of the truth values
-/

namespace PropertyList

/-- Names and their numbers. -/
abbrev EnumTable := List (Text × Int)

namespace EnumTable

/-- The number of a name. -/
def value (table : EnumTable) (name : Option Text) : Except Failure Int :=
  match name.bind fun name => table.lookup name with
  | some n => .ok n
  | none => .error (.decode (.unknownName name) none)

/-- The name of a number. -/
def name (table : EnumTable) (s : Store) (value : Value) : Except Failure Text :=
  match table.find? fun entry => value.equalsInt entry.2 with
  | some entry => .ok entry.1
  | none => .error (.decode (.unknownValue (s.snapshot value).display) none)

end EnumTable

/-- The names of the truth values. -/
def boolTable : EnumTable :=
  [("True", 1), ("False", 0), ("Yes", 1), ("No", 0), ("Enabled", 1), ("Disabled", 0), ("On", 1),
    ("Off", 0)]

end PropertyList
