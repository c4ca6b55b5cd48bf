import PropertyList.Proofs.Heap.Release

/-!
# Holding references

While objects are put together, somebody holds references to some of them and owns these. All
other objects that have been allocated meanwhile are destroyed, and those that were there before
are as they were (`Heap.Holds`).

This stays so when an object is allocated, when a value is handed over to a container that is held
as well, and when references are given back. A value is handed over in two steps: the container
takes a reference to it, and then the other reference is given back.

## Main definitions

* `Heap.Holds`

## Main results

* `Heap.Holds.insert`, `Heap.Holds.push_item`, `Heap.Holds.add_value`, `Heap.Holds.add_entry`,
  `Heap.Holds.refuse_entry`
* `Heap.Holds.release_first`, `Heap.Holds.releaseAll`
-/

namespace PropertyList.Heap

/-- The heap `h` is the heap `base` with further objects. References are held to `ids`, which hold
the values `ts`, and the further objects in use are those of their footprints, listed by `feet`. -/
structure Holds (base h : Heap) (ids : List ObjectId) (ts : List Tree) (feet : List ObjectId) :
    Prop where
  owns : h.OwnsAll ids ts feet
  nodup : feet.Nodup
  le_of_mem : ∀ i ∈ feet, base.objects.size ≤ i
  size_le : base.objects.size ≤ h.objects.size
  object_eq : ∀ i < base.objects.size, h.object i = base.object i
  refs_eq_zero : ∀ i, base.objects.size ≤ i → i ∉ feet → (h.object i).refs = 0
  live_eq : h.live = base.live + feet.length

namespace Holds

variable {base h h' : Heap} {ids ids' : List ObjectId} {ts ts' : List Tree}
  {feet feet' : List ObjectId}

/-- To begin with nothing is held. -/
theorem refl (base : Heap) : Holds base base [] [] [] where
  owns := .nil
  nodup := List.nodup_nil
  le_of_mem _ hi := absurd hi List.not_mem_nil
  size_le := Nat.le_refl _
  object_eq _ _ := rfl
  refs_eq_zero i hi _ := by rw [object_of_le hi]; rfl
  live_eq := rfl

theorem lt_size (hh : Holds base h ids ts feet) {i : ObjectId} (hi : i ∈ feet) :
    i < h.objects.size :=
  lt_size_of_refs (by rw [hh.owns.refs_eq_one i hi]; exact Nat.one_pos)

theorem owns_first {id : ObjectId} {t : Tree} (hh : Holds base h (id :: ids) (t :: ts) feet) :
    ∃ foot, h.Owns id t foot ∧ foot.Nodup := by
  obtain ⟨foot, others, rfl, ho, -⟩ := ownsAll_cons.1 hh.owns
  exact ⟨foot, ho, (List.nodup_append'.1 hh.nodup).1⟩

/-- What is held may be put together in another way, and a part of it may go. -/
theorem update (hh : Holds base h ids ts feet) (gone : List ObjectId)
    (hperm : feet.Perm (gone ++ feet'))
    (howns : h'.OwnsAll ids' ts' feet') (hsize : h'.objects.size = h.objects.size)
    (hobject : ∀ i, i ∉ feet → h'.object i = h.object i)
    (hgone : ∀ i ∈ gone, (h'.object i).refs = 0) (hlive : h'.live = h.live - gone.length) :
    Holds base h' ids' ts' feet' where
  owns := howns
  nodup := (List.nodup_append'.1 (hperm.nodup hh.nodup)).2.1
  le_of_mem i hi := hh.le_of_mem i (hperm.mem_iff.2 (List.mem_append_right gone hi))
  size_le := hsize ▸ hh.size_le
  object_eq i hi := by
    rw [hobject i fun hmem => Nat.not_lt.2 (hh.le_of_mem i hmem) hi, hh.object_eq i hi]
  refs_eq_zero i hi hnot := by
    by_cases hmem : i ∈ feet
    · exact hgone i ((List.mem_append.1 (hperm.mem_iff.1 hmem)).resolve_right hnot)
    · rw [hobject i hmem]
      exact hh.refs_eq_zero i hi hmem
  live_eq := by
    rw [hlive, hh.live_eq, hperm.length_eq, List.length_append]
    omega

/-- A new object is held. -/
theorem insert (hh : Holds base h ids ts feet) {c : Content} {t : Tree}
    (ht : (h.insert c).Owns h.objects.size t [h.objects.size]) :
    Holds base (h.insert c) (h.objects.size :: ids) (t :: ts) (h.objects.size :: feet) where
  owns := .cons ht (hh.owns.frame fun i hi => object_insert_of_ne (Nat.ne_of_lt (hh.lt_size hi)))
  nodup := List.nodup_cons.2 ⟨fun hi => Nat.lt_irrefl _ (hh.lt_size hi), hh.nodup⟩
  le_of_mem := List.forall_mem_cons.2 ⟨hh.size_le, hh.le_of_mem⟩
  size_le := by
    rw [size_insert]
    exact Nat.le_succ_of_le hh.size_le
  object_eq i hi := by
    rw [object_insert_of_ne (Nat.ne_of_lt (Nat.lt_of_lt_of_le hi hh.size_le)), hh.object_eq i hi]
  refs_eq_zero i hi hnot := by
    obtain ⟨hne, hnot⟩ := not_or.1 (mt List.mem_cons.2 hnot)
    rw [object_insert_of_ne hne]
    exact hh.refs_eq_zero i hi hnot
  live_eq := by
    rw [live_insert, hh.live_eq, List.length_cons, Nat.add_assoc]

/-- A new dictionary is held. -/
theorem insert_dict (hh : Holds base h ids ts feet) :
    Holds base (h.insert (.dict .empty)) (h.objects.size :: ids) (.dict [] :: ts)
      (h.objects.size :: feet) :=
  hh.insert (owns_dict.2 ⟨[], [], rfl, object_insert_self, rfl, .nil⟩)

/-- Everything that is held can be given back. -/
theorem releaseAll (hh : Holds base h ids ts feet) :
    ∃ h', releaseAll ids h = .ok () h' ∧ Holds base h' [] [] [] := by
  obtain ⟨h', hrelease, hr⟩ := hh.owns.releaseAll hh.nodup
  exact ⟨h', hrelease, hh.update feet (.of_eq (List.append_nil feet).symm) .nil hr.size_eq
    hr.object_eq hr.refs_eq_zero hr.live_eq⟩

/-- One of the references that are held can be given back. -/
theorem release_first {id : ObjectId} {t : Tree}
    (hh : Holds base h (id :: ids) (t :: ts) feet) :
    ∃ h' feet', release id h = .ok () h' ∧ Holds base h' ids ts feet' := by
  obtain ⟨foot, others, rfl, ho, hs⟩ := ownsAll_cons.1 hh.owns
  obtain ⟨hfoot, -, hdisjoint⟩ := List.nodup_append'.1 hh.nodup
  obtain ⟨h', hrelease, hr⟩ := ho.release hfoot
  refine ⟨h', others, hrelease, hh.update foot (.refl _)
    (hs.frame fun i hi => hr.object_eq i fun h => hdisjoint h hi) hr.size_eq (fun i hi => ?_)
    hr.refs_eq_zero hr.live_eq⟩
  exact hr.object_eq i fun h => hi (List.mem_append_left _ h)

/-! ### Handing over -/

variable {value array dict key : ObjectId} {v : Tree}

private theorem exists_object_eq {i : ObjectId} (hrefs : (h.object i).refs = 1) :
    ∃ c, h.object i = ⟨1, c⟩ :=
  ⟨(h.object i).content, by rw [← hrefs]⟩

/-- An item is handed over to an array. -/
theorem push_item {items : List Tree}
    (hh : Holds base h (value :: array :: ids) (v :: .array items :: ts) feet) :
    ∃ h₁ h' feet', push array value h = .ok () h₁ ∧ release value h₁ = .ok () h' ∧
      Holds base h' (array :: ids) (.array (items ++ [v]) :: ts) feet' := by
  obtain ⟨foot, _, rfl, hv, hs⟩ := ownsAll_cons.1 hh.owns
  obtain ⟨_, others, rfl, harray, hothers⟩ := ownsAll_cons.1 hs
  obtain ⟨reversed, below, rfl, ho, hparts⟩ := owns_array.1 harray
  obtain ⟨c, hc⟩ := exists_object_eq (hv.refs_eq_one value hv.mem_self)
  obtain ⟨-, hrest, hdisjoint⟩ := List.nodup_append'.1 hh.nodup
  have hnotin : array ∉ below ++ others := (List.nodup_cons.1 hrest).1
  have hnotin' : array ∉ foot := fun h => hdisjoint h List.mem_cons_self
  obtain ⟨h₁, h', hpush, hrelease, hsize, hlive, ho', hsame⟩ :=
    exists_push_release ho hc fun h => hnotin' (h ▸ hv.mem_self)
  have hparts' : h'.OwnsAll (value :: reversed) (items ++ [v]).reverse (foot ++ below) := by
    rw [List.reverse_append]
    refine .cons (hv.frame fun i hi => hsame i ?_) (hparts.frame fun i hi => hsame i ?_)
    · exact fun h => hnotin' (h ▸ hi)
    · exact fun h => hnotin (h ▸ List.mem_append_left _ hi)
  have hothers' : h'.OwnsAll ids ts others := hothers.frame fun i hi => hsame i fun h =>
    hnotin (h ▸ List.mem_append_right _ hi)
  refine ⟨h₁, h', _, hpush, hrelease,
    hh.update [] ?_ (.cons (.array ho' hparts') hothers') hsize ?_ ?_ hlive⟩
  · rw [List.nil_append, List.cons_append, List.cons_append, List.append_assoc]
    exact List.perm_middle
  · exact fun i hi => hsame i fun h => hi (h ▸ by simp)
  · exact fun i hi => absurd hi List.not_mem_nil

variable {k : Text} {entries : List (Text × Tree)}

/-- A value is handed over to a dictionary under a new key. -/
theorem add_value (hh : Holds base h (value :: dict :: ids) (v :: .dict entries :: ts) feet)
    (hk : k ∉ entries.map (·.1)) :
    ∃ h₁ h' feet', add dict k value h = .ok true h₁ ∧ release value h₁ = .ok () h' ∧
      Holds base h' (dict :: ids) (.dict (entries ++ [(k, v)]) :: ts) feet' := by
  obtain ⟨foot, _, rfl, hv, hs⟩ := ownsAll_cons.1 hh.owns
  obtain ⟨_, others, rfl, hdict, hothers⟩ := ownsAll_cons.1 hs
  obtain ⟨parts, below, rfl, ho, hkeys, hparts⟩ := owns_dict.1 hdict
  obtain ⟨c, hc⟩ := exists_object_eq (hv.refs_eq_one value hv.mem_self)
  obtain ⟨-, hrest, hdisjoint⟩ := List.nodup_append'.1 hh.nodup
  have hnotin : dict ∉ below ++ others := (List.nodup_cons.1 hrest).1
  have hnotin' : dict ∉ foot := fun h => hdisjoint h List.mem_cons_self
  have hcontains : (Dict.ofList parts).contains k = false := by
    rw [← Bool.not_eq_true, Dict.contains_ofList, hkeys]
    exact hk
  obtain ⟨h₁, h', hadd, hrelease, hsize, hlive, ho', hsame⟩ :=
    exists_add_release ho hc hcontains fun h => hnotin' (h ▸ hv.mem_self)
  rw [← Dict.ofList_append_singleton] at ho'
  have hparts' : h'.OwnsAll ((parts ++ [(k, value)]).map (·.2)) ((entries ++ [(k, v)]).map (·.2))
      (below ++ (foot ++ [])) := by
    rw [List.map_append, List.map_append]
    refine OwnsAll.append (hparts.frame fun i hi => hsame i ?_)
      (.cons (hv.frame fun i hi => hsame i ?_) .nil)
    · exact fun h => hnotin (h ▸ List.mem_append_left _ hi)
    · exact fun h => hnotin' (h ▸ hi)
  have hothers' : h'.OwnsAll ids ts others := hothers.frame fun i hi => hsame i fun h =>
    hnotin (h ▸ List.mem_append_right _ hi)
  refine ⟨h₁, h', _, hadd, hrelease,
    hh.update [] ?_ (.cons (.dict ho' ?_ hparts') hothers') hsize ?_ ?_ hlive⟩
  · rw [List.append_nil, List.nil_append, List.cons_append, List.cons_append]
    refine List.perm_middle.trans (List.Perm.cons dict ?_)
    rw [← List.append_assoc]
    exact List.perm_append_comm.append_right others
  · rw [List.map_append, List.map_append, hkeys]
    rfl
  · exact fun i hi => hsame i fun h => hi (h ▸ by simp)
  · exact fun i hi => absurd hi List.not_mem_nil

/-- The pending key is a string. -/
theorem string?_eq (hh : Holds base h (value :: key :: ids) (v :: .string k :: ts) feet) :
    h.string? key = some k := by
  obtain ⟨_, _, -, -, hs⟩ := ownsAll_cons.1 hh.owns
  obtain ⟨_, _, -, hkey, -⟩ := ownsAll_cons.1 hs
  rw [string?, (owns_string.1 hkey).2]

/-- A value is handed over to a dictionary under a new key, and the object of the key goes. -/
theorem add_entry
    (hh : Holds base h (value :: key :: dict :: ids) (v :: .string k :: .dict entries :: ts) feet)
    (hk : k ∉ entries.map (·.1)) :
    ∃ h₁ h' feet', add dict k value h = .ok true h₁ ∧ Heap.releaseAll [key, value] h₁ = .ok () h' ∧
      Holds base h' (dict :: ids) (.dict (entries ++ [(k, v)]) :: ts) feet' := by
  obtain ⟨foot, _, rfl, hv, hs⟩ := ownsAll_cons.1 hh.owns
  obtain ⟨_, _, rfl, hstring, hs'⟩ := ownsAll_cons.1 hs
  obtain ⟨rfl, hkey⟩ := owns_string.1 hstring
  obtain ⟨_, others, rfl, hdict, hothers⟩ := ownsAll_cons.1 hs'
  obtain ⟨parts, below, rfl, ho, hkeys, hparts⟩ := owns_dict.1 hdict
  obtain ⟨c, hc⟩ := exists_object_eq (hv.refs_eq_one value hv.mem_self)
  obtain ⟨-, hrest, hdisjoint⟩ := List.nodup_append'.1 hh.nodup
  obtain ⟨hkey', hrest⟩ := List.nodup_cons.1 hrest
  have hdict' : dict ∉ below ++ others := (List.nodup_cons.1 hrest).1
  have hdictfoot : dict ∉ foot := fun h => hdisjoint h (by simp)
  have hkeyfoot : key ∉ foot := fun h => hdisjoint h List.mem_cons_self
  have hcontains : (Dict.ofList parts).contains k = false := by
    rw [← Bool.not_eq_true, Dict.contains_ofList, hkeys]
    exact hk
  obtain ⟨h₁, h', hadd, hrelease, hsize, hlive, ho', hzero, hsame⟩ :=
    exists_add_releaseAll ho hkey hc hcontains (fun h => hdictfoot (h ▸ hv.mem_self))
      (fun h => hkey' (h ▸ List.mem_cons_self)) (fun h => hkeyfoot (h ▸ hv.mem_self))
  rw [← Dict.ofList_append_singleton] at ho'
  have hparts' : h'.OwnsAll ((parts ++ [(k, value)]).map (·.2)) ((entries ++ [(k, v)]).map (·.2))
      (below ++ (foot ++ [])) := by
    rw [List.map_append, List.map_append]
    refine OwnsAll.append (hparts.frame fun i hi => hsame i ?_ ?_)
      (.cons (hv.frame fun i hi => hsame i ?_ ?_) .nil)
    · exact fun h => hdict' (h ▸ List.mem_append_left _ hi)
    · exact fun h => hkey' (h ▸ by simp [hi])
    · exact fun h => hdictfoot (h ▸ hi)
    · exact fun h => hkeyfoot (h ▸ hi)
  have hothers' : h'.OwnsAll ids ts others := hothers.frame fun i hi => hsame i
    (fun h => hdict' (h ▸ List.mem_append_right _ hi)) (fun h => hkey' (h ▸ by simp [hi]))
  refine ⟨h₁, h', _, hadd, hrelease,
    hh.update [key] ?_ (.cons (.dict ho' ?_ hparts') hothers') hsize ?_ ?_ hlive⟩
  · have hfoot : (foot ++ (below ++ others)).Perm (below ++ foot ++ others) := by
      rw [← List.append_assoc]
      exact List.perm_append_comm.append_right others
    rw [List.append_nil]
    exact List.perm_middle.trans ((List.perm_middle.trans (hfoot.cons dict)).cons key)
  · rw [List.map_append, List.map_append, hkeys]
    rfl
  · exact fun i hi => hsame i (fun h => hi (h ▸ by simp)) (fun h => hi (h ▸ by simp))
  · exact List.forall_mem_singleton.2 hzero

/-- A value with a key that its dictionary has already is not handed over, and both go. -/
theorem refuse_entry
    (hh : Holds base h (value :: key :: dict :: ids) (v :: .string k :: .dict entries :: ts) feet)
    (hk : k ∈ entries.map (·.1)) :
    ∃ h' feet', add dict k value h = .ok false h ∧ Heap.releaseAll [key, value] h = .ok () h' ∧
      Holds base h' (dict :: ids) (.dict entries :: ts) feet' := by
  obtain ⟨foot, _, rfl, hv, hs⟩ := ownsAll_cons.1 hh.owns
  obtain ⟨footKey, rest, rfl, hkey, hs'⟩ := ownsAll_cons.1 hs
  obtain ⟨_, others, rfl, hdict, hothers⟩ := ownsAll_cons.1 hs'
  obtain ⟨parts, below, rfl, ho, hkeys, hparts⟩ := owns_dict.1 hdict
  have hadd : add dict k value h = .ok false h :=
    add_of_contains (by rw [ho]) (Dict.contains_ofList.2 (hkeys ▸ hk))
  have hperm : (foot ++ (footKey ++ (dict :: below ++ others))).Perm
      ((footKey ++ (foot ++ [])) ++ (dict :: below ++ others)) := by
    rw [List.append_nil, ← List.append_assoc]
    exact List.perm_append_comm.append_right _
  obtain ⟨hgone, -, hdisjoint⟩ := List.nodup_append'.1 (hperm.nodup hh.nodup)
  obtain ⟨h', hrelease, hr⟩ := (OwnsAll.cons hkey (.cons hv .nil)).releaseAll hgone
  have hs'' : h'.OwnsAll (dict :: ids) (.dict entries :: ts) (dict :: below ++ others) :=
    hs'.frame fun i hi => hr.object_eq i fun h => hdisjoint h hi
  refine ⟨h', _, hadd, hrelease, hh.update _ hperm hs'' hr.size_eq (fun i hi => ?_)
    hr.refs_eq_zero hr.live_eq⟩
  exact hr.object_eq i fun h => hi (hperm.mem_iff.2 (List.mem_append_left _ h))

end Holds

end PropertyList.Heap
