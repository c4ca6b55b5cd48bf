import PropertyList.Heap.Basic
import PropertyList.Tree.Basic

/-!
# Objects as trees

The tree of an object shows what the object holds and forgets which parts are shared and how often
they are referred to. Objects are compared, shown and rendered by their trees.

## Main definitions

* `Heap.tree`
-/

namespace PropertyList.Heap

/-- The tree of an object, of which the first `depth` levels are shown. -/
def treeTo (h : Heap) : Nat → ObjectId → Tree
  | 0, _ => .string []
  | depth + 1, id =>
    match (h.object id).content with
    | .string value => .string value
    | .array reversed => .array (reversed.reverse.map (h.treeTo depth))
    | .dict entries => .dict (entries.toList.map fun (key, part) => (key, h.treeTo depth part))

/-- The tree of an object. No object is part of itself, so no tree is deeper than the number of
objects. -/
def tree (h : Heap) (id : ObjectId) : Tree :=
  h.treeTo (h.objects.size + 1) id

end PropertyList.Heap
