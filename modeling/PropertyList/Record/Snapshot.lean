import PropertyList.Record.Store

/-!
# Snapshots of values

A snapshot shows a value as it is in a store at one time, with all the items of its lists and all
that its objects hold. It does not tell which of them are shared.

## Main definitions

* `Snapshot`, `Store.snapshot`
* `Snapshot.display`, a value as messages show it
-/

namespace PropertyList

/-- What a value shows. -/
inductive Snapshot where
  | null
  | bool (b : Bool)
  | int (n : Int)
  | double (x : Double)
  | text (t : Text)
  | list (items : List Snapshot)
  | record (attributes : List (String × Snapshot))
  /-- An object with the number of references to it. -/
  | object (tree : Tree) (refs : Nat)
  deriving Inhabited

mutual

/-- What a value shows when `itemsOf` gives what the items of a list show. -/
def Value.snapshotBy (h : Heap) (itemsOf : ListId → List Snapshot) : Value → Snapshot
  | .null => .null
  | .bool b => .bool b
  | .int n => .int n
  | .double x => .double x
  | .text t => .text t
  | .list id => .list (itemsOf id)
  | .record attributes => .record (Value.snapshotsBy h itemsOf attributes)
  | .object id => .object (h.tree id) (h.object id).refs

/-- What the attributes of a record show. -/
def Value.snapshotsBy (h : Heap) (itemsOf : ListId → List Snapshot) :
    List (String × Value) → List (String × Snapshot)
  | [] => []
  | (name, v) :: attributes =>
    (name, v.snapshotBy h itemsOf) :: Value.snapshotsBy h itemsOf attributes

end

namespace Store

/-- What the items of a list show, down to `depth` lists inside one another. -/
def itemSnapshots (s : Store) : Nat → ListId → List Snapshot
  | 0, _ => []
  | depth + 1, id => (s.items id).toList.map (Value.snapshotBy s.heap (s.itemSnapshots depth))

/-- What a value shows. No list is part of itself, so no more lists are inside one another than
there are. -/
def snapshot (s : Store) (v : Value) : Snapshot :=
  v.snapshotBy s.heap (s.itemSnapshots s.lists.size)

end Store

namespace Snapshot

mutual

/-- A value as messages show it. -/
def display : Snapshot → Text
  | null => "None"
  | bool b => if b then "True" else "False"
  | int n => .ofInt n
  | double x => x.toText
  | text t => t.display
  | list items => "[" ++ Text.join ", " (displayItems items) ++ "]"
  | record attributes => "Record(" ++ Text.join ", " (displayAttributes attributes) ++ ")"
  | object tree _ => tree.display

/-- The values of a list as messages show them. -/
def displayItems : List Snapshot → List Text
  | [] => []
  | v :: vs => v.display :: displayItems vs

/-- The attributes of a record as messages show them. -/
def displayAttributes : List (String × Snapshot) → List Text
  | [] => []
  | (name, v) :: attributes => (.ofString name ++ "=" ++ v.display) :: displayAttributes attributes

end

end Snapshot

end PropertyList
