import PropertyList.Proofs.Document.Order
import PropertyList.Proofs.Document.Parse
import PropertyList.Proofs.Document.Rendering

/-!
# Building objects

Objects are created, parsed, put together and given back in any order. Whatever is done, and
whatever fails, dictionaries have different keys and are read in the order of the bytes of their
keys. So the trees of objects are ordered. Conversely every ordered tree is that of an object: its
rendering is parsed to it.

## Main definitions

* `Operation`, what can be done with objects
* `Heap.build`, the heap that a sequence of operations leaves
* `Tree.Built`, the trees of objects

## Main results

* `Tree.built_iff_ordered`
-/

namespace PropertyList

/-- What can be done with objects. -/
inductive Operation where
  /-- Create a string. -/
  | string (value : Text)
  /-- Create a dictionary without entries. -/
  | dict
  /-- Create an array without items. -/
  | array
  /-- Parse a document. -/
  | parse (t : Text)
  /-- Take a reference to an object. -/
  | retain (id : ObjectId)
  /-- Give back a reference to an object. -/
  | release (id : ObjectId)
  /-- Add an entry to a dictionary. -/
  | add (container : ObjectId) (key : Text) (value : ObjectId)
  /-- Append an item to an array. -/
  | push (container item : ObjectId)

/-- The heap after an operation, whether or not it fails. -/
def Operation.perform : Operation → Heap → Heap
  | string value => after (Heap.allocate (.string value))
  | dict => after (Heap.allocate (.dict .empty))
  | array => after (Heap.allocate (.array []))
  | parse t => after (Document.parse t)
  | retain id => after (Heap.retain id)
  | release id => after (Heap.release id)
  | add container key value => after (Heap.add container key value)
  | push container item => after (Heap.push container item)

/-- The heap that a sequence of operations leaves. -/
def Heap.build (operations : List Operation) : Heap :=
  operations.foldl (fun h o => o.perform h) .empty

theorem Heap.build_append (operations operations' : List Operation) :
    build (operations ++ operations') =
      operations'.foldl (fun h o => o.perform h) (build operations) :=
  List.foldl_append

/-- Whether a tree is that of an object, however the object was built. -/
def Tree.Built (t : Tree) : Prop :=
  ∃ operations id, (Heap.build operations).tree id = t

theorem Operation.wellKeyed_perform (o : Operation) {h : Heap} (hh : h.WellKeyed) :
    (o.perform h).WellKeyed := by
  cases o with
  | string value => exact Heap.preserves_allocate (Content.wellKeyed_string value) h hh
  | dict => exact Heap.preserves_allocate Content.wellKeyed_empty h hh
  | array => exact Heap.preserves_allocate (Content.wellKeyed_array []) h hh
  | parse t => exact Document.preserves_parse t h hh
  | retain id => exact Heap.preserves_retain id h hh
  | release id => exact Heap.preserves_release id h hh
  | add container key value => exact Heap.preserves_add container key value h hh
  | push container item => exact Heap.preserves_push container item h hh

theorem Heap.wellKeyed_build (operations : List Operation) : (build operations).WellKeyed := by
  induction operations using List.reverseRecOn with
  | nil => exact wellKeyed_empty
  | append_singleton operations o ih =>
    rw [build_append]
    exact o.wellKeyed_perform ih

/-- **The trees of objects are the ordered trees.** -/
theorem Tree.built_iff_ordered {t : Tree} : t.Built ↔ t.Ordered := by
  constructor
  · rintro ⟨operations, id, rfl⟩
    exact (Heap.wellKeyed_build operations).ordered_tree id
  · intro ht
    obtain ⟨hdocument, herror⟩ := t.documentTokens_scan_render 0 0
    obtain ⟨root, h', hparse, htree⟩ := Document.exists_parse_iff (h := .empty).2
      ⟨t, Document.read_eq_ok herror hdocument ht.uniqueKeys, (arrange_eq_self ht).symm⟩
    have hbuild : Heap.build [.parse (t.render 0 0)] = h' := after_of_ok hparse
    exact ⟨[.parse (t.render 0 0)], root, by rw [hbuild, htree]⟩

end PropertyList
