import PropertyList.Heap.Basic

/-!
# Giving references back

Giving back the last reference to an object destroys it, and a destroyed container gives back its
references in turn: an array from its last item to its first, and a dictionary, which is empty
from then on, in the order in which its entries were added. What remains to be done at any moment
is a list of duties, so a chain of containers of any depth is dismantled one duty at a time.

When a duty meets an object that is destroyed already, everything stops there. The containers
being dismantled are not counted out, and the parts that are left keep their references.

No limit is set to the number of containers being dismantled at once. A machine that keeps them on
a call stack gives up on a chain that is deeper than its stack, and nothing here stands for that.

## Main definitions

* `Duty`, `Heap.settle`
* `Heap.release`

## Main results

* `Heap.weight_set`: how the bound on the number of duties changes with an object
-/

namespace PropertyList

/-- Something that remains to be done. -/
inductive Duty where
  /-- Give back a reference to an object. -/
  | release (id : ObjectId)
  /-- Give back the items of a destroyed array, the last one first. -/
  | unload (array : ObjectId)
  /-- Count out an object that has given back its references. -/
  | countOut
  deriving DecidableEq, Repr

/-- What a duty contributes to the bound on the number of duties to come. -/
def Duty.weight : Duty → Nat
  | release _ | countOut => 1
  | unload _ => 2

/-- What an object contributes to the bound on the number of duties to come. -/
def Object.weight (o : Object) : Nat :=
  2 * (o.refs + o.content.parts.length)

/-- What the members of a list contribute together. -/
def totalWeight {α : Type} (weight : α → Nat) : List α → Nat
  | [] => 0
  | a :: l => weight a + totalWeight weight l

theorem totalWeight_append {α : Type} (weight : α → Nat) (l₁ l₂ : List α) :
    totalWeight weight (l₁ ++ l₂) = totalWeight weight l₁ + totalWeight weight l₂ := by
  induction l₁ with
  | nil => simp [totalWeight]
  | cons a l₁ ih => rw [List.cons_append, totalWeight, totalWeight, ih, Nat.add_assoc]

theorem totalWeight_map_release (ids : List ObjectId) :
    totalWeight Duty.weight (ids.map .release) = ids.length := by
  induction ids with
  | nil => rfl
  | cons id ids ih =>
    rw [List.map_cons, totalWeight, ih, Duty.weight, List.length_cons, Nat.add_comm]

private theorem totalWeight_set {α : Type} (weight : α → Nat) (x : α) :
    ∀ (l : List α) (i : Nat) (h : i < l.length),
      totalWeight weight (l.set i x) + weight l[i] = totalWeight weight l + weight x
  | a :: l, 0, _ => by simp only [List.set_cons_zero, totalWeight, List.getElem_cons_zero]; omega
  | a :: l, i + 1, h => by
    have := totalWeight_set weight x l i (by simpa using h)
    simp only [List.set_cons_succ, totalWeight, List.getElem_cons_succ]
    omega

namespace Heap

/-- A bound on the number of duties that the objects of a heap can give rise to. -/
def weight (h : Heap) : Nat :=
  totalWeight Object.weight h.objects.toList

theorem object_of_lt {h : Heap} {id : ObjectId} (hid : id < h.objects.size) :
    h.object id = h.objects[id] := by
  simp [object, Array.getD, hid]

theorem object_of_le {h : Heap} {id : ObjectId} (hid : h.objects.size ≤ id) :
    h.object id = .absent := by
  simp [object, Array.getD, Nat.not_lt.2 hid]

/-- An object with references, or with parts, has been allocated. -/
theorem lt_size_of_weight {h : Heap} {id : ObjectId} (hw : 0 < (h.object id).weight) :
    id < h.objects.size := by
  apply Classical.byContradiction
  intro hid
  rw [object_of_le (Nat.not_lt.1 hid)] at hw
  exact absurd hw (by decide)

theorem weight_set {h : Heap} {id : ObjectId} (hid : id < h.objects.size) (o : Object) :
    (h.set id o).weight + (h.object id).weight = h.weight + o.weight := by
  have := totalWeight_set Object.weight o h.objects.toList id hid
  rw [object_of_lt hid]
  simp only [weight, set, Array.toList_setIfInBounds]
  exact this

/-- Replacing an object by a lighter one makes the heap lighter by the difference. -/
theorem weight_set_add (h : Heap) (id : ObjectId) (o : Object)
    (hw : o.weight < (h.object id).weight) :
    (h.set id o).weight + ((h.object id).weight - o.weight) = h.weight := by
  have hid : id < h.objects.size := lt_size_of_weight (by omega)
  have := weight_set hid o
  omega

/-- Performs duties in order, and stops at the first that meets a destroyed object. -/
def settle (h : Heap) : List Duty → EStateM.Result Misuse Heap Unit
  | [] => .ok () h
  | .countOut :: duties => { h with live := h.live - 1 }.settle duties
  | .unload array :: duties =>
    match _hc : (h.object array).content with
    | .array (item :: reversed) =>
      (h.setContent array (.array reversed)).settle (.release item :: .unload array :: duties)
    | .array [] | .string _ | .dict _ => h.settle (.countOut :: duties)
  | .release id :: duties =>
    if _h0 : (h.object id).refs = 0 then .error ⟨.release, h.kind id⟩ h
    else if _h1 : (h.object id).refs = 1 then
      match _hc : (h.object id).content with
      | .string value => (h.set id ⟨0, .string value⟩).settle (.countOut :: duties)
      | .array reversed => (h.set id ⟨0, .array reversed⟩).settle (.unload id :: duties)
      | .dict entries =>
        (h.set id ⟨0, .dict .empty⟩).settle
          (entries.values.map .release ++ .countOut :: duties)
    else (h.set id { h.object id with refs := (h.object id).refs - 1 }).settle duties
  termination_by duties => h.weight + totalWeight Duty.weight duties
  decreasing_by
    all_goals simp only [totalWeight, totalWeight_append, totalWeight_map_release, Duty.weight]
    all_goals try omega
    · show h.weight + _ < _
      omega
    · have := weight_set_add h array
        { h.object array with content := .array reversed }
        (by simp only [Object.weight, _hc, Content.parts, List.length_cons]; omega)
      simp only [Object.weight, _hc, Content.parts, List.length_cons] at this
      simp only [setContent]
      omega
    · have := weight_set_add h id ⟨0, .string value⟩
        (by simp only [Object.weight, _hc, Content.parts]; omega)
      simp only [Object.weight, _hc, Content.parts] at this
      omega
    · have := weight_set_add h id ⟨0, .array reversed⟩
        (by simp only [Object.weight, _hc, Content.parts]; omega)
      simp only [Object.weight, _hc, Content.parts] at this
      omega
    · have := weight_set_add h id ⟨0, .dict .empty⟩
        (by simp only [Object.weight, _hc, Content.parts, Dict.values, Dict.empty,
              List.map_nil, List.length_nil]; omega)
      simp only [Object.weight, _hc, Content.parts, Dict.values, Dict.empty,
        List.map_nil, List.length_nil, List.length_map] at this ⊢
      omega
    · have := weight_set_add h id
        { h.object id with refs := (h.object id).refs - 1 }
        (by simp only [Object.weight]; omega)
      simp only [Object.weight] at this
      omega

/-- Gives back a reference to an object. -/
def release (id : ObjectId) : HeapM Unit := fun h =>
  h.settle [.release id]

/-- Gives back references one after the other. -/
def releaseAll : List ObjectId → HeapM Unit
  | [] => pure ()
  | id :: ids => do
    release id
    releaseAll ids

end Heap

end PropertyList
