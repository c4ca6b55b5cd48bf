import Mathlib
import PropertyList.Heap.Release

/-!
# What the operations do to objects

Each operation changes a few objects and leaves the others as they are. Giving back a reference to
an object is performed duty by duty (`Heap.settle`), and there is one equation for each kind of
object that a duty may meet.

## Main results

* `Heap.object_set_self`, `Heap.object_set_of_ne` and the same for `Heap.insert`
* `Heap.settle_release_string` and its companions
* `Heap.retain_eq`, `Heap.push_of_retain`, `Heap.add_of_retain`
* `Heap.exists_push_release`, `Heap.exists_add_release`, `Heap.exists_add_releaseAll` : handing a
  value over to a container.
-/

namespace PropertyList.Heap

variable {h : Heap} {id i : ObjectId} {o : Object}

/-! ### Changing one object -/

@[simp]
theorem size_set : (h.set id o).objects.size = h.objects.size :=
  Array.size_setIfInBounds

@[simp]
theorem live_set : (h.set id o).live = h.live := rfl

theorem object_set_self (hid : id < h.objects.size) : (h.set id o).object id = o := by
  simp [object, set, Array.getD, hid]

theorem object_set_of_ne (hne : i ≠ id) : (h.set id o).object i = h.object i := by
  simp [object, set, Array.getD_eq_getD_getElem?, Array.getElem?_setIfInBounds_ne (Ne.symm hne)]

theorem setContent_of_le (hid : h.objects.size ≤ id) {c : Content} : h.setContent id c = h := by
  rw [setContent, set, Array.setIfInBounds_eq_of_size_le hid]

theorem setContent_set (hid : id < h.objects.size) (c : Content) :
    (h.set id o).setContent id c = h.set id { o with content := c } := by
  rw [setContent, object_set_self hid, set, set, set, Array.setIfInBounds_setIfInBounds]

/-- An object with a reference has been allocated. -/
theorem lt_size_of_refs (hrefs : 0 < (h.object id).refs) : id < h.objects.size :=
  lt_size_of_weight (by rw [Object.weight]; omega)

theorem lt_size_of_object {n : Nat} {c : Content} (ho : h.object id = ⟨n + 1, c⟩) :
    id < h.objects.size :=
  lt_size_of_refs (by rw [ho]; exact Nat.succ_pos n)

@[simp]
theorem size_insert {c : Content} : (h.insert c).objects.size = h.objects.size + 1 :=
  Array.size_push _

@[simp]
theorem live_insert {c : Content} : (h.insert c).live = h.live + 1 := rfl

theorem object_insert_self {c : Content} : (h.insert c).object h.objects.size = ⟨1, c⟩ := by
  simp [object, insert, Array.getD_eq_getD_getElem?]

theorem object_insert_of_ne {c : Content} (hne : i ≠ h.objects.size) :
    (h.insert c).object i = h.object i := by
  simp [object, insert, Array.getD_eq_getD_getElem?, Array.getElem?_push, hne]

/-! ### Duties -/

variable {duties : List Duty}

theorem settle_nil : h.settle [] = .ok () h := by
  rw [settle]

theorem settle_countOut :
    h.settle (.countOut :: duties) = settle { h with live := h.live - 1 } duties := by
  rw [settle]

theorem settle_release_string {s : Text} (ho : h.object id = ⟨1, .string s⟩) :
    h.settle (.release id :: duties) = (h.set id ⟨0, .string s⟩).settle (.countOut :: duties) := by
  conv => lhs; rw [settle]
  rw [dif_neg (by simp [ho]), dif_pos (by simp [ho])]
  split <;> simp_all

theorem settle_release_array {reversed : List ObjectId} (ho : h.object id = ⟨1, .array reversed⟩) :
    h.settle (.release id :: duties) =
      (h.set id ⟨0, .array reversed⟩).settle (.unload id :: duties) := by
  conv => lhs; rw [settle]
  rw [dif_neg (by simp [ho]), dif_pos (by simp [ho])]
  split <;> simp_all

theorem settle_release_dict {d : Dict ObjectId} (ho : h.object id = ⟨1, .dict d⟩) :
    h.settle (.release id :: duties) =
      (h.set id ⟨0, .dict .empty⟩).settle (d.values.map .release ++ .countOut :: duties) := by
  conv => lhs; rw [settle]
  rw [dif_neg (by simp [ho]), dif_pos (by simp [ho])]
  split <;> simp_all

/-- Giving back a reference that is not the last one only lowers the count. -/
theorem settle_release_shared {n : Nat} {c : Content} (ho : h.object id = ⟨n + 2, c⟩) :
    h.settle (.release id :: duties) = (h.set id ⟨n + 1, c⟩).settle duties := by
  conv => lhs; rw [settle]
  simp [ho]

/-- Giving back a reference that does not exist stops everything. -/
theorem settle_release_destroyed (hrefs : (h.object id).refs = 0) :
    h.settle (.release id :: duties) = .error ⟨.release, h.kind id⟩ h := by
  rw [settle, dif_pos hrefs]

theorem settle_unload_nil (ho : (h.object id).content = .array []) :
    h.settle (.unload id :: duties) = h.settle (.countOut :: duties) := by
  conv => lhs; rw [settle]
  split <;> simp_all

theorem settle_unload_cons {item : ObjectId} {reversed : List ObjectId}
    (ho : (h.object id).content = .array (item :: reversed)) :
    h.settle (.unload id :: duties) =
      (h.setContent id (.array reversed)).settle (.release item :: .unload id :: duties) := by
  conv => lhs; rw [settle]
  split <;> simp_all

/-! ### Operations -/

theorem release_string {s : Text} (ho : h.object id = ⟨1, .string s⟩) :
    release id h = .ok () { h.set id ⟨0, .string s⟩ with live := h.live - 1 } := by
  rw [release, settle_release_string ho, settle_countOut, settle_nil]
  rfl

theorem release_shared {n : Nat} {c : Content} (ho : h.object id = ⟨n + 2, c⟩) :
    release id h = .ok () (h.set id ⟨n + 1, c⟩) := by
  rw [release, settle_release_shared ho, settle_nil]

theorem retain_eq {n : Nat} {c : Content} (ho : h.object id = ⟨n + 1, c⟩) :
    retain id h = .ok () (h.set id ⟨n + 2, c⟩) := by
  simp [retain, ho]

theorem retain_of_destroyed (hrefs : (h.object id).refs = 0) :
    retain id h = .error ⟨.retain, h.kind id⟩ h := by
  simp [retain, hrefs, kind]

section Parts

variable {h₁ : Heap} {value : ObjectId} {key : Text} {d : Dict ObjectId} {reversed : List ObjectId}

theorem push_of_ne_array (hcontent : ∀ reversed, (h.object id).content ≠ .array reversed) :
    push id value h = .ok () h := by
  cases hc : (h.object id).content with
  | array reversed => exact absurd hc (hcontent reversed)
  | _ => simp [push, bind, EStateM.bind, get, getThe, MonadStateOf.get, EStateM.get, hc, pure,
      EStateM.pure]

theorem push_of_retain (hcontent : (h.object id).content = .array reversed)
    (hretain : retain value h = .ok () h₁) :
    push id value h = .ok () (h₁.setContent id (.array (value :: reversed))) := by
  simp [push, bind, EStateM.bind, get, getThe, MonadStateOf.get, EStateM.get, hcontent, hretain,
    modify, modifyGet, MonadStateOf.modifyGet, EStateM.modifyGet]

theorem push_of_error {misuse : Misuse} (hcontent : (h.object id).content = .array reversed)
    (hretain : retain value h = .error misuse h₁) : push id value h = .error misuse h₁ := by
  simp [push, bind, EStateM.bind, get, getThe, MonadStateOf.get, EStateM.get, hcontent, hretain]

theorem add_of_ne_dict (hcontent : ∀ d, (h.object id).content ≠ .dict d) :
    add id key value h = .ok false h := by
  cases hc : (h.object id).content with
  | dict d => exact absurd hc (hcontent d)
  | _ => simp [add, bind, EStateM.bind, get, getThe, MonadStateOf.get, EStateM.get, dict?, hc, pure,
      EStateM.pure]

theorem add_of_contains (hcontent : (h.object id).content = .dict d)
    (hkey : d.contains key = true) : add id key value h = .ok false h := by
  simp [add, bind, EStateM.bind, get, getThe, MonadStateOf.get, EStateM.get, dict?, hcontent, hkey,
    pure, EStateM.pure]

theorem add_of_retain (hcontent : (h.object id).content = .dict d)
    (hkey : d.contains key = false) (hretain : retain value h = .ok () h₁) :
    add id key value h = .ok true (h₁.setContent id (.dict (d.add key value))) := by
  simp [add, bind, EStateM.bind, get, getThe, MonadStateOf.get, EStateM.get, dict?, hcontent, hkey,
    hretain, modify, modifyGet, MonadStateOf.modifyGet, EStateM.modifyGet, pure, EStateM.pure]

theorem add_of_error {misuse : Misuse} (hcontent : (h.object id).content = .dict d)
    (hkey : d.contains key = false) (hretain : retain value h = .error misuse h₁) :
    add id key value h = .error misuse h₁ := by
  simp [add, bind, EStateM.bind, get, getThe, MonadStateOf.get, EStateM.get, dict?, hcontent, hkey,
    hretain]

variable {n m : Nat} {c : Content}

theorem push_eq (ho : h.object id = ⟨n, .array reversed⟩) (hvalue : h.object value = ⟨m + 1, c⟩)
    (hne : id ≠ value) :
    push id value h =
      .ok () ((h.set value ⟨m + 2, c⟩).set id ⟨n, .array (value :: reversed)⟩) := by
  rw [push_of_retain (by rw [ho]) (retain_eq hvalue), setContent, object_set_of_ne hne, ho]

theorem add_eq_true (ho : h.object id = ⟨n, .dict d⟩) (hkey : d.contains key = false)
    (hvalue : h.object value = ⟨m + 1, c⟩) (hne : id ≠ value) :
    add id key value h =
      .ok true ((h.set value ⟨m + 2, c⟩).set id ⟨n, .dict (d.add key value)⟩) := by
  rw [add_of_retain (by rw [ho]) hkey (retain_eq hvalue), setContent, object_set_of_ne hne, ho]

end Parts

theorem releaseAll_cons {h' : Heap} (hrelease : release id h = .ok () h') (ids : List ObjectId) :
    releaseAll (id :: ids) h = releaseAll ids h' := by
  simp only [releaseAll, bind, EStateM.bind, hrelease]

/-! ### Handing over -/

section HandOver

variable {value : ObjectId} {c : Content}

/-- Once a container has taken a reference to a value, giving back the other one changes nothing but
the container. -/
theorem exists_release_handed (hid : 0 < (h.object id).refs) (hvalue : h.object value = ⟨1, c⟩)
    (hne : id ≠ value) (o : Object) :
    ∃ h', release value ((h.set value ⟨2, c⟩).set id o) = .ok () h' ∧
      h'.objects.size = h.objects.size ∧ h'.live = h.live ∧ h'.object id = o ∧
      ∀ i, i ≠ id → h'.object i = h.object i := by
  have hlt : value < h.objects.size := lt_size_of_object hvalue
  let h₁ := (h.set value ⟨2, c⟩).set id o
  have hvalue₁ : h₁.object value = ⟨2, c⟩ := by
    rw [object_set_of_ne hne.symm, object_set_self hlt]
  refine ⟨h₁.set value ⟨1, c⟩, release_shared hvalue₁, ?_, rfl, ?_, fun i hi => ?_⟩
  · rw [size_set, size_set, size_set]
  · rw [object_set_of_ne hne, object_set_self (by rw [size_set]; exact lt_size_of_refs hid)]
  · by_cases hiv : i = value
    · rw [hiv, object_set_self (by rwa [size_set, size_set]), hvalue]
    · rw [object_set_of_ne hiv, object_set_of_ne hi, object_set_of_ne hiv]

/-- Handing an item over to an array changes nothing but the array. -/
theorem exists_push_release {reversed : List ObjectId} (ho : h.object id = ⟨1, .array reversed⟩)
    (hvalue : h.object value = ⟨1, c⟩) (hne : id ≠ value) :
    ∃ h₁ h', push id value h = .ok () h₁ ∧ release value h₁ = .ok () h' ∧
      h'.objects.size = h.objects.size ∧ h'.live = h.live ∧
      h'.object id = ⟨1, .array (value :: reversed)⟩ ∧ ∀ i, i ≠ id → h'.object i = h.object i := by
  obtain ⟨h', hrelease⟩ := exists_release_handed (by rw [ho]; exact Nat.one_pos) hvalue hne
    ⟨1, .array (value :: reversed)⟩
  exact ⟨_, h', push_eq ho hvalue hne, hrelease⟩

/-- Handing a value over to a dictionary under a new key changes nothing but the dictionary. -/
theorem exists_add_release {d : Dict ObjectId} {k : Text} (ho : h.object id = ⟨1, .dict d⟩)
    (hvalue : h.object value = ⟨1, c⟩) (hk : d.contains k = false) (hne : id ≠ value) :
    ∃ h₁ h', add id k value h = .ok true h₁ ∧ release value h₁ = .ok () h' ∧
      h'.objects.size = h.objects.size ∧ h'.live = h.live ∧
      h'.object id = ⟨1, .dict (d.add k value)⟩ ∧ ∀ i, i ≠ id → h'.object i = h.object i := by
  obtain ⟨h', hrelease⟩ := exists_release_handed (by rw [ho]; exact Nat.one_pos) hvalue hne
    ⟨1, .dict (d.add k value)⟩
  exact ⟨_, h', add_eq_true ho hk hvalue hne, hrelease⟩

/-- Handing a value over to a dictionary changes the dictionary and destroys the object of the
key. -/
theorem exists_add_releaseAll {d : Dict ObjectId} {key : ObjectId} {k : Text}
    (ho : h.object id = ⟨1, .dict d⟩) (hkey : h.object key = ⟨1, .string k⟩)
    (hvalue : h.object value = ⟨1, c⟩) (hk : d.contains k = false) (hne : id ≠ value)
    (hki : key ≠ id) (hkv : key ≠ value) :
    ∃ h₁ h', add id k value h = .ok true h₁ ∧ releaseAll [key, value] h₁ = .ok () h' ∧
      h'.objects.size = h.objects.size ∧ h'.live = h.live - 1 ∧
      h'.object id = ⟨1, .dict (d.add k value)⟩ ∧ (h'.object key).refs = 0 ∧
      ∀ i, i ≠ id → i ≠ key → h'.object i = h.object i := by
  have hid : id < h.objects.size := lt_size_of_object ho
  have hlt : value < h.objects.size := lt_size_of_object hvalue
  have hklt : key < h.objects.size := lt_size_of_object hkey
  let h₁ := (h.set value ⟨2, c⟩).set id ⟨1, .dict (d.add k value)⟩
  let h₂ : Heap := { h₁.set key ⟨0, .string k⟩ with live := h.live - 1 }
  have hkey₁ : h₁.object key = ⟨1, .string k⟩ := by
    rw [object_set_of_ne hki, object_set_of_ne hkv, hkey]
  have hsame₂ (i : ObjectId) (hi : i ≠ key) : h₂.object i = h₁.object i := object_set_of_ne hi
  have hvalue₂ : h₂.object value = ⟨2, c⟩ := by
    rw [hsame₂ value hkv.symm, object_set_of_ne hne.symm, object_set_self hlt]
  have hsize₂ : h₂.objects.size = h.objects.size := size_set.trans (size_set.trans size_set)
  refine ⟨h₁, h₂.set value ⟨1, c⟩, add_eq_true ho hk hvalue hne, ?_, ?_, rfl, ?_, ?_,
    fun i hi hik => ?_⟩
  · rw [releaseAll_cons (release_string hkey₁)]
    exact releaseAll_cons (release_shared hvalue₂) []
  · rw [size_set, hsize₂]
  · rw [object_set_of_ne hne, hsame₂ id hki.symm, object_set_self (by rwa [size_set])]
  · have hkey₂ : h₂.object key = ⟨0, .string k⟩ :=
      object_set_self (by rwa [size_set, size_set])
    rw [object_set_of_ne hkv, hkey₂]
  · by_cases hiv : i = value
    · rw [hiv, object_set_self (by rwa [hsize₂]), hvalue]
    · rw [object_set_of_ne hiv, hsame₂ i hik, object_set_of_ne hi, object_set_of_ne hiv]

end HandOver

end PropertyList.Heap
