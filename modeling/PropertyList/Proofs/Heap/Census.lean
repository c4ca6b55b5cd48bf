import PropertyList.Proofs.Heap.Objects

/-!
# Counting objects and positions

The objects in use are those that are not destroyed, and an object occupies a position in a
container for each time that the container holds it. Both are counted by adding up over all
objects that have been allocated, so replacing one object changes the count by the difference.

## Main definitions

* `Heap.total`, the sum over all objects
* `Heap.population`, the number of objects in use
* `Heap.positions`, the number of positions of an object in containers in use

## Main results

* `Heap.total_set`, `Heap.total_insert`
* `Heap.total_eq_add`, for a heap that extends another
-/

namespace PropertyList

/-- Counts an object that is in use. -/
def Object.presence (o : Object) : Nat :=
  if o.refs = 0 then 0 else 1

/-- The number of positions that `id` has in an object that is in use. -/
def Object.positions (id : ObjectId) (o : Object) : Nat :=
  if o.refs = 0 then 0 else o.content.parts.count id

namespace Object

@[simp]
theorem presence_of_zero (c : Content) : presence ⟨0, c⟩ = 0 := rfl

@[simp]
theorem presence_of_succ (n : Nat) (c : Content) : presence ⟨n + 1, c⟩ = 1 := rfl

@[simp]
theorem positions_of_zero (id : ObjectId) (c : Content) : positions id ⟨0, c⟩ = 0 := rfl

@[simp]
theorem positions_of_succ (id : ObjectId) (n : Nat) (c : Content) :
    positions id ⟨n + 1, c⟩ = c.parts.count id := rfl

end Object

namespace Heap

variable {h h' : Heap} {id : ObjectId} {o : Object}

/-- What the objects of a heap amount to together. -/
def total (h : Heap) (f : Object → Nat) : Nat :=
  ∑ i ∈ Finset.range h.objects.size, f (h.object i)

/-- The number of objects in use. -/
def population (h : Heap) : Nat :=
  h.total Object.presence

/-- The number of positions that an object has in containers in use. -/
def positions (h : Heap) (id : ObjectId) : Nat :=
  h.total (Object.positions id)

private theorem add_sum_erase (hid : id < h.objects.size) (f : Object → Nat) :
    f (h.object id) + ∑ i ∈ (Finset.range h.objects.size).erase id, f (h.object i) = h.total f :=
  Finset.add_sum_erase _ (fun i => f (h.object i)) (Finset.mem_range.2 hid)

/-- Replacing an object changes the sum by the difference. -/
theorem total_set (hid : id < h.objects.size) (o : Object) (f : Object → Nat) :
    (h.set id o).total f + f (h.object id) = h.total f + f o := by
  have hbefore := add_sum_erase hid f
  have hafter := add_sum_erase (h := h.set id o) (by rwa [size_set]) f
  have hothers : ∑ i ∈ (Finset.range h.objects.size).erase id, f ((h.set id o).object i) =
      ∑ i ∈ (Finset.range h.objects.size).erase id, f (h.object i) :=
    Finset.sum_congr rfl fun i hi => by rw [object_set_of_ne (Finset.ne_of_mem_erase hi)]
  rw [size_set, object_set_self hid, hothers] at hafter
  omega

theorem total_insert (c : Content) (f : Object → Nat) :
    (h.insert c).total f = h.total f + f ⟨1, c⟩ := by
  rw [total, size_insert, Finset.sum_range_succ, object_insert_self, total]
  congr 1
  exact Finset.sum_congr rfl fun i hi => by
    rw [object_insert_of_ne (Nat.ne_of_lt (Finset.mem_range.1 hi))]

/-- A heap that extends another counts the objects of the other and those that are listed, if all
further objects are destroyed. -/
theorem total_eq_add {feet : List ObjectId} {f : Object → Nat} (hf : ∀ c, f ⟨0, c⟩ = 0)
    (hsize : h.objects.size ≤ h'.objects.size)
    (hsame : ∀ i < h.objects.size, h'.object i = h.object i) (hnodup : feet.Nodup)
    (hfeet : ∀ i ∈ feet, h.objects.size ≤ i ∧ i < h'.objects.size)
    (hothers : ∀ i, h.objects.size ≤ i → i ∉ feet → (h'.object i).refs = 0) :
    h'.total f = h.total f + (feet.map fun i => f (h'.object i)).sum := by
  have hold : ∑ i ∈ Finset.range h.objects.size, f (h'.object i) = h.total f :=
    Finset.sum_congr rfl fun i hi => by rw [hsame i (Finset.mem_range.1 hi)]
  have hnew : ∑ i ∈ Finset.Ico h.objects.size h'.objects.size, f (h'.object i) =
      ∑ i ∈ feet.toFinset, f (h'.object i) := by
    refine (Finset.sum_subset (fun i hi => ?_) fun i hi hnot => ?_).symm
    · exact Finset.mem_Ico.2 (hfeet i (List.mem_toFinset.1 hi))
    · have hrefs := hothers i (Finset.mem_Ico.1 hi).1 (mt List.mem_toFinset.2 hnot)
      have ho : h'.object i = ⟨0, (h'.object i).content⟩ := by rw [← hrefs]
      rw [ho]
      exact hf _
  rw [total, ← Finset.sum_range_add_sum_Ico _ hsize, hold, hnew, List.sum_toFinset _ hnodup]

/-- A part of an object in use has a position there. -/
theorem positions_pos {part : ObjectId} (hid : (h.object id).refs ≠ 0)
    (hpart : part ∈ (h.object id).content.parts) : 0 < h.positions part := by
  have hmem : id ∈ Finset.range h.objects.size :=
    Finset.mem_range.2 (lt_size_of_refs (Nat.pos_of_ne_zero hid))
  have hcount : 0 < Object.positions part (h.object id) := by
    rw [Object.positions, if_neg hid]
    exact List.count_pos_iff.2 hpart
  exact Nat.lt_of_lt_of_le hcount
    (Finset.single_le_sum (f := fun i => Object.positions part (h.object i))
      (fun _ _ => Nat.zero_le _) hmem)

end Heap

end PropertyList
