import PropertyList.Heap.View
import PropertyList.Proofs.Heap.Objects
import PropertyList.Proofs.Preservation
import PropertyList.Proofs.Tree.Order

/-!
# Objects in the order of reading

A dictionary grows by one entry at a time, and a key that is present is refused. So every
dictionary on a heap is one to which entries with different keys have been added, however the
objects were put together and given back. Hence the trees of all objects are ordered.

## Main definitions

* `Heap.WellKeyed`, heaps of which each dictionary has been grown entry by entry

## Main results

* `Heap.preserves_add` and the same for the other operations
* `Heap.WellKeyed.ordered_tree`
-/

namespace PropertyList

/-! ### Dictionaries with different keys -/

/-- Whether a content, if it is a dictionary, is one to which entries with different keys have been
added. -/
def Content.WellKeyed : Content → Prop
  | dict d => ∃ entries : List (Text × ObjectId), (entries.map (·.1)).Nodup ∧ d = .ofList entries
  | string _ | array _ => True

theorem Content.wellKeyed_string (s : Text) : (string s).WellKeyed := trivial

theorem Content.wellKeyed_array (reversed : List ObjectId) : (array reversed).WellKeyed := trivial

theorem Content.wellKeyed_empty : (Content.dict .empty).WellKeyed :=
  ⟨[], List.nodup_nil, rfl⟩

theorem Content.WellKeyed.add {d : Dict ObjectId} (hd : (dict d).WellKeyed) {key : Text}
    (hkey : d.contains key = false) (value : ObjectId) : (dict (d.add key value)).WellKeyed := by
  obtain ⟨entries, hnodup, rfl⟩ := hd
  have hnew : key ∉ entries.map (·.1) := fun hmem => by
    rw [Dict.contains_ofList.2 hmem] at hkey
    cases hkey
  refine ⟨entries ++ [(key, value)], ?_, (Dict.ofList_append_singleton entries key value).symm⟩
  rw [List.map_append]
  exact hnodup.append (List.nodup_singleton key)
    fun k hk hmem => hnew ((List.mem_singleton.1 hmem : k = key) ▸ hk)

namespace Heap

/-- Whether every dictionary on a heap is one to which entries with different keys have been
added. -/
def WellKeyed (h : Heap) : Prop :=
  ∀ id, (h.object id).content.WellKeyed

variable {h : Heap}

theorem wellKeyed_empty : empty.WellKeyed := fun id => by
  rw [object_of_le (Nat.zero_le id)]
  trivial

theorem WellKeyed.set (hh : h.WellKeyed) (id : ObjectId) {o : Object}
    (ho : o.content.WellKeyed) : (h.set id o).WellKeyed := by
  intro i
  by_cases hi : i = id
  · subst hi
    by_cases hlt : i < h.objects.size
    · rwa [object_set_self hlt]
    · rw [object_of_le (Nat.not_lt.1 (by rwa [size_set]))]
      trivial
  · rw [object_set_of_ne hi]
    exact hh i

theorem WellKeyed.insert (hh : h.WellKeyed) {c : Content} (hc : c.WellKeyed) :
    (h.insert c).WellKeyed := by
  intro i
  by_cases hi : i = h.objects.size
  · rw [hi, object_insert_self]
    exact hc
  · rw [object_insert_of_ne hi]
    exact hh i

theorem content_eq_of_dict? {id : ObjectId} {d : Dict ObjectId} (hd : h.dict? id = some d) :
    (h.object id).content = .dict d := by
  unfold dict? at hd
  split at hd
  · rw [‹(h.object id).content = _›, Option.some.inj hd]
  · cases hd
  · cases hd

theorem content_eq_of_array? {id : ObjectId} {items : List ObjectId}
    (hitems : h.array? id = some items) : (h.object id).content = .array items.reverse := by
  unfold array? at hitems
  split at hitems
  · rw [‹(h.object id).content = _›, ← Option.some.inj hitems, List.reverse_reverse]
  · cases hitems
  · cases hitems

/-! ### Operations -/

theorem preserves_allocate {c : Content} (hc : c.WellKeyed) :
    Preserves WellKeyed (allocate c) :=
  fun _ hh => hh.insert hc

theorem preserves_retain (id : ObjectId) : Preserves WellKeyed (retain id) := by
  intro h hh
  by_cases hrefs : (h.object id).refs = 0
  · simpa [after, retain, hrefs] using hh
  · have hset := hh.set id (o := { h.object id with refs := (h.object id).refs + 1 }) (hh id)
    simpa [after, retain, hrefs] using hset

theorem preserves_add (dict : ObjectId) (key : Text) (value : ObjectId) :
    Preserves WellKeyed (add dict key value) := by
  refine preserves_get_bind fun h hh => ?_
  cases hdict : h.dict? dict with
  | none => exact preserves_pure false
  | some d =>
    have hd : (Content.dict d).WellKeyed := content_eq_of_dict? hdict ▸ hh dict
    cases hkey : d.contains key with
    | true =>
      simp only [hkey, if_true]
      exact preserves_pure false
    | false =>
      simp only [hkey, Bool.false_eq_true, if_false]
      refine (preserves_retain value).bind fun _ => ?_
      refine (preserves_modify fun h hh => ?_).bind fun _ => preserves_pure true
      exact hh.set dict (hd.add hkey value)

theorem preserves_push (array item : ObjectId) : Preserves WellKeyed (push array item) := by
  refine preserves_get_bind fun h hh => ?_
  cases hcontent : (h.object array).content with
  | string s => exact preserves_pure ()
  | dict d => exact preserves_pure ()
  | array reversed =>
    refine (preserves_retain item).bind fun _ => ?_
    exact preserves_modify fun h hh => hh.set array (Content.wellKeyed_array _)

/-- Giving references back empties dictionaries or leaves them as they are. -/
theorem preserves_settle (duties : List Duty) :
    Preserves WellKeyed fun h => h.settle duties := by
  intro h hh
  simp only [after]
  fun_induction Heap.settle h duties with
  | case1 h => exact hh
  | case2 h duties ih => exact ih hh
  | case3 h array duties item reversed hc ih =>
    exact ih (hh.set array (Content.wellKeyed_array reversed))
  | case4 h array duties hc ih => exact ih hh
  | case5 h array duties s hc ih => exact ih hh
  | case6 h array duties d hc ih => exact ih hh
  | case7 h id duties h0 => exact hh
  | case8 h id duties h0 h1 s hc ih => exact ih (hh.set id (Content.wellKeyed_string s))
  | case9 h id duties h0 h1 reversed hc ih =>
    exact ih (hh.set id (Content.wellKeyed_array reversed))
  | case10 h id duties h0 h1 d hc ih => exact ih (hh.set id Content.wellKeyed_empty)
  | case11 h id duties h0 h1 ih => exact ih (hh.set id (hh id))

theorem preserves_release (id : ObjectId) : Preserves WellKeyed (release id) :=
  preserves_settle [.release id]

theorem preserves_releaseAll (ids : List ObjectId) : Preserves WellKeyed (releaseAll ids) := by
  induction ids with
  | nil => exact preserves_pure ()
  | cons id ids ih => exact (preserves_release id).bind fun _ => ih

/-! ### Trees -/

theorem WellKeyed.ordered_treeTo (hh : h.WellKeyed) (depth : Nat) (id : ObjectId) :
    (h.treeTo depth id).Ordered := by
  induction depth generalizing id with
  | zero => exact fun keys hk => absurd hk List.not_mem_nil
  | succ depth ih =>
    have hid := hh id
    rw [treeTo]
    cases hcontent : (h.object id).content with
    | string s => exact fun keys hk => absurd hk List.not_mem_nil
    | array reversed =>
      refine Tree.ordered_array.2 fun t ht => ?_
      obtain ⟨part, -, rfl⟩ := List.mem_map.1 ht
      exact ih part
    | dict d =>
      rw [hcontent] at hid
      obtain ⟨entries, hnodup, rfl⟩ := hid
      refine Tree.ordered_dict.2 ⟨?_, fun e he => ?_⟩
      · have hkeys := Dict.map_fst_toList_ofList hnodup
        rw [List.map_map]
        change ((Dict.ofList entries).toList.map (·.1)).Nodup ∧
          ((Dict.ofList entries).toList.map (·.1)).Pairwise fun k l => k.byBytes l
        rw [hkeys]
        exact ⟨(List.mergeSort_perm _ _).nodup_iff.2 hnodup,
          List.pairwise_mergeSort Text.byBytes_trans Text.byBytes_total _⟩
      · obtain ⟨part, -, rfl⟩ := List.mem_map.1 he
        exact ih part.2

/-- **Objects are shown in the order of reading.** -/
theorem WellKeyed.ordered_tree (hh : h.WellKeyed) (id : ObjectId) : (h.tree id).Ordered :=
  hh.ordered_treeTo _ id

end Heap

end PropertyList
