import PropertyList.Proofs.Heap.Census

/-!
# How heaps evolve

Whatever is done to a heap, rightly or wrongly, it evolves in an orderly way. References to objects
are taken and given back one at a time. No object that has been destroyed comes back to life. The
number of objects in use that the heap keeps is right, but for the containers that were destroyed
without being counted out. These are different containers, and none of them was destroyed before.

## Main definitions

* `Heap.Evolves`

## Main results

* `Heap.Evolves.trans`
* `Heap.evolves_retain`, `Heap.evolves_lower`, `Heap.evolves_insert`, `Heap.evolves_setContent`,
  `Heap.evolves_string` : what the operations on one object do.
* `Heap.evolves_expire`, `Heap.Evolves.countOut` : a container that is destroyed is one whose
  destruction has been aborted, until it is counted out.
-/

namespace PropertyList.Heap

variable {h h' h'' : Heap} {id : ObjectId} {o : Object} {n : Nat} {c : Content}
  {taken taken' given given' aborted aborted' : List ObjectId}

/-- The heap `h` evolves to `h'` as references are `taken` and `given` back and the destruction of
containers is `aborted`. -/
structure Evolves (h : Heap) (taken given aborted : List ObjectId) (h' : Heap) : Prop where
  size_le : h.objects.size ≤ h'.objects.size
  refs_eq : ∀ i, (h'.object i).refs + given.count i = (h.object i).refs + taken.count i
  kind_eq : ∀ i < h.objects.size, h'.kind i = h.kind i
  refs_eq_zero : ∀ i < h.objects.size, (h.object i).refs = 0 → (h'.object i).refs = 0
  /-- Of the objects that are counted, `n` are neither in use nor among the aborted. -/
  live_eq : ∀ n, h.live = h.population + n → h'.live = h'.population + n + aborted.length
  nodup : aborted.Nodup
  /-- The aborted were not destroyed before. -/
  refs_ne_zero : ∀ i ∈ aborted, i < h.objects.size → (h.object i).refs ≠ 0
  destroyed : ∀ i ∈ aborted, i < h'.objects.size ∧ (h'.object i).refs = 0 ∧ h'.kind i ≠ .string

namespace Evolves

theorem refl (h : Heap) : h.Evolves [] [] [] h where
  size_le := Nat.le_refl _
  refs_eq _ := rfl
  kind_eq _ _ := rfl
  refs_eq_zero _ _ hi := hi
  live_eq _ hn := hn
  nodup := List.nodup_nil
  refs_ne_zero _ hi := absurd hi List.not_mem_nil
  destroyed _ hi := absurd hi List.not_mem_nil

theorem trans (hs : h.Evolves taken given aborted h')
    (hs' : h'.Evolves taken' given' aborted' h'') :
    h.Evolves (taken ++ taken') (given ++ given') (aborted ++ aborted') h'' where
  size_le := Nat.le_trans hs.size_le hs'.size_le
  refs_eq i := by
    have hrefs := hs.refs_eq i
    have hrefs' := hs'.refs_eq i
    rw [List.count_append, List.count_append]
    omega
  kind_eq i hi := (hs'.kind_eq i (Nat.lt_of_lt_of_le hi hs.size_le)).trans (hs.kind_eq i hi)
  refs_eq_zero i hi hrefs :=
    hs'.refs_eq_zero i (Nat.lt_of_lt_of_le hi hs.size_le) (hs.refs_eq_zero i hi hrefs)
  live_eq n hn := by
    rw [hs'.live_eq _ ((hs.live_eq n hn).trans (Nat.add_assoc _ _ _)), List.length_append]
    omega
  nodup := by
    refine List.nodup_append'.2 ⟨hs.nodup, hs'.nodup, fun i hi hi' => ?_⟩
    obtain ⟨hlt, hrefs, -⟩ := hs.destroyed i hi
    exact hs'.refs_ne_zero i hi' hlt hrefs
  refs_ne_zero i hi hlt hrefs := by
    rcases List.mem_append.1 hi with hi | hi
    · exact hs.refs_ne_zero i hi hlt hrefs
    · exact hs'.refs_ne_zero i hi (Nat.lt_of_lt_of_le hlt hs.size_le)
        (hs.refs_eq_zero i hlt hrefs)
  destroyed i hi := by
    rcases List.mem_append.1 hi with hi | hi
    · obtain ⟨hlt, hrefs, hkind⟩ := hs.destroyed i hi
      refine ⟨Nat.lt_of_lt_of_le hlt hs'.size_le, hs'.refs_eq_zero i hlt hrefs, ?_⟩
      rwa [hs'.kind_eq i hlt]
    · exact hs'.destroyed i hi

/-- An aborted destruction is made good by counting the container out. -/
theorem countOut (hs : h.Evolves taken given (id :: aborted) h') :
    h.Evolves taken given aborted { h' with live := h'.live - 1 } where
  size_le := hs.size_le
  refs_eq := hs.refs_eq
  kind_eq := hs.kind_eq
  refs_eq_zero := hs.refs_eq_zero
  live_eq n hn := by
    have hlive : h'.live = h'.population + n + (aborted.length + 1) := hs.live_eq n hn
    change h'.live - 1 = h'.population + n + aborted.length
    omega
  nodup := (List.nodup_cons.1 hs.nodup).2
  refs_ne_zero i hi := hs.refs_ne_zero i (List.mem_cons_of_mem id hi)
  destroyed i hi := hs.destroyed i (List.mem_cons_of_mem id hi)

end Evolves

/-! ### Changing one object -/

theorem kind_set (hid : id < h.objects.size) (hkind : o.content.kind = h.kind id) (i : ObjectId) :
    (h.set id o).kind i = h.kind i := by
  by_cases hi : i = id
  · rw [hi, kind, object_set_self hid, hkind]
  · rw [kind, object_set_of_ne hi, kind]

/-- An object in use stays in use, and a destroyed one stays destroyed. -/
theorem evolves_set (hid : id < h.objects.size) (hrefs : o.refs = 0 ↔ (h.object id).refs = 0)
    (hkind : o.content.kind = h.kind id)
    (hself : o.refs + given.count id = (h.object id).refs + taken.count id)
    (hothers : ∀ i, i ≠ id → given.count i = taken.count i) :
    h.Evolves taken given [] (h.set id o) where
  size_le := size_set.ge
  refs_eq i := by
    by_cases hi : i = id
    · rw [hi, object_set_self hid, hself]
    · rw [object_set_of_ne hi, hothers i hi]
  kind_eq i _ := kind_set hid hkind i
  refs_eq_zero i _ hi := by
    by_cases hii : i = id
    · rw [hii, object_set_self hid, hrefs, ← hii, hi]
    · rwa [object_set_of_ne hii]
  live_eq n hn := by
    have hpresence : o.presence = (h.object id).presence := by
      simp only [Object.presence, hrefs]
    have htotal := total_set hid o Object.presence
    rw [hpresence] at htotal
    have hpopulation : (h.set id o).population = h.population := Nat.add_right_cancel htotal
    rw [hpopulation]
    exact hn
  nodup := List.nodup_nil
  refs_ne_zero _ hi := absurd hi List.not_mem_nil
  destroyed _ hi := absurd hi List.not_mem_nil

theorem evolves_retain (ho : h.object id = ⟨n + 1, c⟩) :
    h.Evolves [id] [] [] (h.set id ⟨n + 2, c⟩) := by
  refine evolves_set (lt_size_of_object ho) (by simp [ho]) (by rw [kind, ho]) ?_
    fun i hi => ?_
  · rw [ho, List.count_singleton_self]
    rfl
  · rw [List.count_nil, List.count_eq_zero.2 (mt List.mem_singleton.1 hi)]

theorem evolves_lower (ho : h.object id = ⟨n + 2, c⟩) :
    h.Evolves [] [id] [] (h.set id ⟨n + 1, c⟩) := by
  refine evolves_set (lt_size_of_object ho) (by simp [ho]) (by rw [kind, ho]) ?_
    fun i hi => ?_
  · rw [ho, List.count_singleton_self]
    rfl
  · rw [List.count_nil, List.count_eq_zero.2 (mt List.mem_singleton.1 hi)]

/-- What an object holds may change, but not its variant. -/
theorem evolves_setContent (hkind : c.kind = h.kind id) :
    h.Evolves [] [] [] (h.setContent id c) := by
  by_cases hid : id < h.objects.size
  · exact evolves_set hid Iff.rfl hkind rfl fun _ _ => rfl
  · rw [setContent_of_le (Nat.not_lt.1 hid)]
    exact Evolves.refl h

theorem evolves_insert (c : Content) : h.Evolves [h.objects.size] [] [] (h.insert c) where
  size_le := by
    rw [size_insert]
    exact Nat.le_succ _
  refs_eq i := by
    by_cases hi : i = h.objects.size
    · rw [hi, object_insert_self, object_of_le (Nat.le_refl _), List.count_singleton_self]
      rfl
    · rw [object_insert_of_ne hi, List.count_nil, List.count_eq_zero.2 (mt List.mem_singleton.1 hi)]
  kind_eq i hi := by rw [kind, object_insert_of_ne (Nat.ne_of_lt hi), kind]
  refs_eq_zero i hi hrefs := by rwa [object_insert_of_ne (Nat.ne_of_lt hi)]
  live_eq n hn := by
    have hpopulation : (h.insert c).population = h.population + 1 := total_insert c Object.presence
    rw [live_insert, hn, hpopulation, List.length_nil]
    omega
  nodup := List.nodup_nil
  refs_ne_zero _ hi := absurd hi List.not_mem_nil
  destroyed _ hi := absurd hi List.not_mem_nil

/-! ### Taking the last reference -/

section LastReference

variable (ho : h.object id = ⟨1, c⟩)
include ho

theorem refs_set_zero (i : ObjectId) :
    ((h.set id ⟨0, c⟩).object i).refs + [id].count i = (h.object i).refs := by
  have hid : id < h.objects.size := lt_size_of_object ho
  by_cases hi : i = id
  · rw [hi, object_set_self hid, List.count_singleton_self, ho]
  · rw [object_set_of_ne hi, List.count_eq_zero.2 (mt List.mem_singleton.1 hi), Nat.add_zero]

theorem population_set_zero : (h.set id ⟨0, c⟩).population + 1 = h.population := by
  have htotal := total_set (lt_size_of_object ho) ⟨0, c⟩ Object.presence
  rwa [ho] at htotal

/-- A container without references counts as aborted. -/
theorem evolves_expire (hc : c.kind ≠ .string) :
    h.Evolves [] [id] [id] (h.set id ⟨0, c⟩) where
  size_le := size_set.ge
  refs_eq i := refs_set_zero ho i
  kind_eq i _ := kind_set (lt_size_of_object ho) (by rw [kind, ho]) i
  refs_eq_zero i _ hi := by
    have hrefs := refs_set_zero ho i
    omega
  live_eq n hn := by
    have hpopulation := population_set_zero ho
    rw [live_set, hn, List.length_singleton]
    omega
  nodup := List.nodup_singleton id
  refs_ne_zero i hi _ := by
    rw [List.mem_singleton.1 hi, ho]
    exact Nat.one_ne_zero
  destroyed i hi := by
    have hid : id < h.objects.size := lt_size_of_object ho
    rw [List.mem_singleton.1 hi, size_set, kind, object_set_self hid]
    exact ⟨hid, rfl, hc⟩

end LastReference

/-- A string is destroyed and counted out at once. -/
theorem evolves_string {s : Text} (ho : h.object id = ⟨1, .string s⟩) :
    h.Evolves [] [id] [] { h.set id ⟨0, .string s⟩ with live := h.live - 1 } where
  size_le := size_set.ge
  refs_eq i := refs_set_zero ho i
  kind_eq i _ := kind_set (lt_size_of_object ho) (by rw [kind, ho]) i
  refs_eq_zero i _ hi := by
    have hrefs := refs_set_zero ho i
    change ((h.set id ⟨0, .string s⟩).object i).refs = 0
    omega
  live_eq n hn := by
    have hpopulation := population_set_zero ho
    change h.live - 1 = (h.set id ⟨0, .string s⟩).population + n + 0
    omega
  nodup := List.nodup_nil
  refs_ne_zero _ hi := absurd hi List.not_mem_nil
  destroyed _ hi := absurd hi List.not_mem_nil

end PropertyList.Heap
