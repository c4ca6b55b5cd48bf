import PropertyList.Heap.View
import PropertyList.Proofs.Heap.Objects
import PropertyList.Proofs.Tree.Order

/-!
# Owned objects

An object is *owned* when there is one reference to it and to each of its parts, at all depths.
Whoever holds the reference to it then owns all of these objects, which are its *footprint*. The
footprint of an object depends on no other object, has as many objects as the tree of the object
has values, and holds everything that can be reached from the object.

## Main definitions

* `Heap.Owns`, with `Heap.OwnsAll` for lists of objects
* `Heap.Reaches`, the objects that can be reached from an object

## Main results

* `Heap.Owns.frame`, `Heap.Owns.length_eq`
* `Heap.Owns.tree_eq` : the tree of an owned object.
* `Heap.Owns.mem_iff_reaches`, `Heap.OwnsAll.apart`
-/

namespace PropertyList.Heap

mutual

/-- The object `id` holds the values of a tree, and it and its parts are owned. The last argument
lists these objects. -/
inductive Owns (h : Heap) : ObjectId → Tree → List ObjectId → Prop
  | string {id : ObjectId} {s : Text} (ho : h.object id = ⟨1, .string s⟩) :
      Owns h id (.string s) [id]
  | array {id : ObjectId} {reversed : List ObjectId} {items : List Tree} {foot : List ObjectId}
      (ho : h.object id = ⟨1, .array reversed⟩) (hparts : OwnsAll h reversed items.reverse foot) :
      Owns h id (.array items) (id :: foot)
  | dict {id : ObjectId} {parts : List (Text × ObjectId)} {entries : List (Text × Tree)}
      {foot : List ObjectId} (ho : h.object id = ⟨1, .dict (.ofList parts)⟩)
      (hkeys : parts.map (·.1) = entries.map (·.1))
      (hparts : OwnsAll h (parts.map (·.2)) (entries.map (·.2)) foot) :
      Owns h id (.dict entries) (id :: foot)

/-- The objects hold the values of the trees, one by one, and are owned. -/
inductive OwnsAll (h : Heap) : List ObjectId → List Tree → List ObjectId → Prop
  | nil : OwnsAll h [] [] []
  | cons {id : ObjectId} {t : Tree} {foot : List ObjectId} {ids : List ObjectId} {ts : List Tree}
      {feet : List ObjectId} (ho : Owns h id t foot) (hs : OwnsAll h ids ts feet) :
      OwnsAll h (id :: ids) (t :: ts) (foot ++ feet)

end

variable {h h' : Heap}

/-! ### Forms of ownership -/

theorem owns_string {id : ObjectId} {s : Text} {foot : List ObjectId} :
    h.Owns id (.string s) foot ↔ foot = [id] ∧ h.object id = ⟨1, .string s⟩ := by
  constructor
  · rintro ⟨ho⟩
    exact ⟨rfl, ho⟩
  · rintro ⟨rfl, ho⟩
    exact .string ho

theorem owns_array {id : ObjectId} {items : List Tree} {foot : List ObjectId} :
    h.Owns id (.array items) foot ↔
      ∃ reversed feet, foot = id :: feet ∧ h.object id = ⟨1, .array reversed⟩ ∧
        h.OwnsAll reversed items.reverse feet := by
  constructor
  · rintro (_ | ⟨ho, hparts⟩)
    exact ⟨_, _, rfl, ho, hparts⟩
  · rintro ⟨reversed, feet, rfl, ho, hparts⟩
    exact .array ho hparts

theorem owns_dict {id : ObjectId} {entries : List (Text × Tree)} {foot : List ObjectId} :
    h.Owns id (.dict entries) foot ↔
      ∃ parts feet, foot = id :: feet ∧ h.object id = ⟨1, .dict (.ofList parts)⟩ ∧
        parts.map (·.1) = entries.map (·.1) ∧
          h.OwnsAll (parts.map (·.2)) (entries.map (·.2)) feet := by
  constructor
  · rintro (_ | _ | ⟨ho, hkeys, hparts⟩)
    exact ⟨_, _, rfl, ho, hkeys, hparts⟩
  · rintro ⟨parts, feet, rfl, ho, hkeys, hparts⟩
    exact .dict ho hkeys hparts

theorem ownsAll_cons {id : ObjectId} {t : Tree} {ids : List ObjectId} {ts : List Tree}
    {feet : List ObjectId} :
    h.OwnsAll (id :: ids) (t :: ts) feet ↔
      ∃ foot rest, feet = foot ++ rest ∧ h.Owns id t foot ∧ h.OwnsAll ids ts rest := by
  constructor
  · rintro (_ | ⟨ho, hs⟩)
    exact ⟨_, _, rfl, ho, hs⟩
  · rintro ⟨foot, rest, rfl, ho, hs⟩
    exact .cons ho hs

theorem OwnsAll.exists_cons {t : Tree} {ids : List ObjectId} {ts : List Tree}
    {feet : List ObjectId} (hs : h.OwnsAll ids (t :: ts) feet) :
    ∃ id ids' rest, ids = id :: ids' ∧ h.OwnsAll ids' ts rest := by
  cases hs with
  | cons ho hs => exact ⟨_, _, _, rfl, hs⟩

theorem Owns.kind_eq_string {id : ObjectId} {s : Text} {foot : List ObjectId}
    (ho : h.Owns id (.string s) foot) : h.kind id = .string := by
  rw [kind, (owns_string.1 ho).2]
  rfl

theorem Owns.kind_eq_dict {id : ObjectId} {entries : List (Text × Tree)} {foot : List ObjectId}
    (ho : h.Owns id (.dict entries) foot) : h.kind id = .dict := by
  obtain ⟨_, _, -, ho, -⟩ := owns_dict.1 ho
  rw [kind, ho]
  rfl

theorem Owns.kind_eq_array {id : ObjectId} {items : List Tree} {foot : List ObjectId}
    (ho : h.Owns id (.array items) foot) : h.kind id = .array := by
  obtain ⟨reversed, _, -, ho, -⟩ := owns_array.1 ho
  rw [kind, ho]
  rfl

/-! ### Footprints -/

theorem Owns.mem_self {id : ObjectId} {t : Tree} {foot : List ObjectId} (ho : Owns h id t foot) :
    id ∈ foot := by
  cases ho with
  | string ho => exact List.mem_singleton_self id
  | array ho hparts => exact List.mem_cons_self
  | dict ho hkeys hparts => exact List.mem_cons_self

mutual

/-- Ownership depends on nothing but the footprint. -/
theorem Owns.frame {id : ObjectId} {t : Tree} {foot : List ObjectId} (ho : Owns h id t foot)
    (hsame : ∀ i ∈ foot, h'.object i = h.object i) : Owns h' id t foot := by
  match ho with
  | .string ho => exact .string ((hsame id (List.mem_singleton_self id)).trans ho)
  | .array ho hparts =>
    obtain ⟨hid, hfoot⟩ := List.forall_mem_cons.1 hsame
    exact .array (hid.trans ho) (hparts.frame hfoot)
  | .dict ho hkeys hparts =>
    obtain ⟨hid, hfoot⟩ := List.forall_mem_cons.1 hsame
    exact .dict (hid.trans ho) hkeys (hparts.frame hfoot)

theorem OwnsAll.frame {ids : List ObjectId} {ts : List Tree} {feet : List ObjectId}
    (hs : OwnsAll h ids ts feet) (hsame : ∀ i ∈ feet, h'.object i = h.object i) :
    OwnsAll h' ids ts feet := by
  match hs with
  | .nil => exact .nil
  | .cons ho hs =>
    obtain ⟨hfoot, hfeet⟩ := List.forall_mem_append.1 hsame
    exact .cons (ho.frame hfoot) (hs.frame hfeet)

end

mutual

/-- A footprint has an object for each value of the tree. -/
theorem Owns.length_eq {id : ObjectId} {t : Tree} {foot : List ObjectId} (ho : Owns h id t foot) :
    foot.length = t.size := by
  match ho with
  | .string ho => rfl
  | .array ho hparts =>
    rw [List.length_cons, hparts.length_eq, Tree.size_array, List.map_reverse,
      (List.reverse_perm _).sum_nat, Nat.add_comm]
  | .dict ho hkeys hparts =>
    rw [List.length_cons, hparts.length_eq, Tree.size_dict, List.map_map, Nat.add_comm]
    rfl

theorem OwnsAll.length_eq {ids : List ObjectId} {ts : List Tree} {feet : List ObjectId}
    (hs : OwnsAll h ids ts feet) : feet.length = (ts.map Tree.size).sum := by
  match hs with
  | .nil => rfl
  | .cons ho hs => rw [List.length_append, ho.length_eq, hs.length_eq, List.map_cons, List.sum_cons]

end

mutual

/-- There is one reference to each object of a footprint. -/
theorem Owns.refs_eq_one {id : ObjectId} {t : Tree} {foot : List ObjectId}
    (ho : Owns h id t foot) : ∀ i ∈ foot, (h.object i).refs = 1 := by
  match ho with
  | .string ho => exact List.forall_mem_singleton.2 (by rw [ho])
  | .array ho hparts => exact List.forall_mem_cons.2 ⟨by rw [ho], hparts.refs_eq_one⟩
  | .dict ho hkeys hparts => exact List.forall_mem_cons.2 ⟨by rw [ho], hparts.refs_eq_one⟩

theorem OwnsAll.refs_eq_one {ids : List ObjectId} {ts : List Tree} {feet : List ObjectId}
    (hs : OwnsAll h ids ts feet) : ∀ i ∈ feet, (h.object i).refs = 1 := by
  match hs with
  | .nil => exact fun i hi => absurd hi List.not_mem_nil
  | .cons ho hs => exact List.forall_mem_append.2 ⟨ho.refs_eq_one, hs.refs_eq_one⟩

end

/-- Everything listed is part of the footprint. -/
theorem OwnsAll.subset {ids : List ObjectId} {ts : List Tree} {feet : List ObjectId}
    (hs : OwnsAll h ids ts feet) : ids ⊆ feet := by
  match hs with
  | .nil => exact List.Subset.refl _
  | .cons ho hs =>
    exact List.cons_subset.2 ⟨List.mem_append_left _ ho.mem_self,
      List.subset_append_of_subset_right _ hs.subset⟩

theorem OwnsAll.append {ids ids' : List ObjectId} {ts ts' : List Tree}
    {feet feet' : List ObjectId} (hs : OwnsAll h ids ts feet) (hs' : OwnsAll h ids' ts' feet') :
    OwnsAll h (ids ++ ids') (ts ++ ts') (feet ++ feet') := by
  match hs with
  | .nil => exact hs'
  | .cons ho hs =>
    rw [List.append_assoc]
    exact .cons ho (hs.append hs')

/-! ### Reaching -/

/-- Whether an object can be reached from another one, from containers to their parts. -/
def Reaches (h : Heap) : ObjectId → ObjectId → Prop :=
  Relation.ReflTransGen fun i j => j ∈ (h.object i).content.parts

/-- What can be reached from inside a list that has all parts of its objects is inside it. -/
theorem Reaches.mem_of_closed {l : List ObjectId}
    (hl : ∀ i ∈ l, ∀ j ∈ (h.object i).content.parts, j ∈ l) {i j : ObjectId} (hi : i ∈ l)
    (hreaches : h.Reaches i j) : j ∈ l := by
  induction hreaches with
  | refl => exact hi
  | tail _ hpart ih => exact hl _ ih _ hpart

mutual

/-- The parts of an object of a footprint are part of the footprint. -/
theorem Owns.mem_of_mem_parts {id : ObjectId} {t : Tree} {foot : List ObjectId}
    (ho : Owns h id t foot) :
    ∀ i ∈ foot, ∀ j ∈ (h.object i).content.parts, j ∈ foot := by
  match ho with
  | .string ho =>
    refine List.forall_mem_singleton.2 ?_
    rw [ho]
    exact fun j hj => absurd hj List.not_mem_nil
  | .array ho hparts =>
    refine List.forall_mem_cons.2 ⟨?_, fun i hi j hj =>
      List.mem_cons_of_mem _ (hparts.mem_of_mem_parts i hi j hj)⟩
    rw [ho]
    exact fun j hj => List.mem_cons_of_mem _ (hparts.subset hj)
  | .dict ho hkeys hparts =>
    refine List.forall_mem_cons.2 ⟨?_, fun i hi j hj =>
      List.mem_cons_of_mem _ (hparts.mem_of_mem_parts i hi j hj)⟩
    rw [ho, Content.parts, Dict.values, Dict.entries_ofList]
    exact fun j hj => List.mem_cons_of_mem _ (hparts.subset hj)

theorem OwnsAll.mem_of_mem_parts {ids : List ObjectId} {ts : List Tree} {feet : List ObjectId}
    (hs : OwnsAll h ids ts feet) :
    ∀ i ∈ feet, ∀ j ∈ (h.object i).content.parts, j ∈ feet := by
  match hs with
  | .nil => exact fun i hi => absurd hi List.not_mem_nil
  | .cons ho hs =>
    refine List.forall_mem_append.2 ⟨fun i hi j hj => ?_, fun i hi j hj => ?_⟩
    · exact List.mem_append_left _ (ho.mem_of_mem_parts i hi j hj)
    · exact List.mem_append_right _ (hs.mem_of_mem_parts i hi j hj)

end

/-- What can be reached from an owned object is part of its footprint. -/
theorem Owns.mem_of_reaches {id : ObjectId} {t : Tree} {foot : List ObjectId}
    (ho : Owns h id t foot) {i : ObjectId} (hi : h.Reaches id i) : i ∈ foot :=
  hi.mem_of_closed ho.mem_of_mem_parts ho.mem_self

mutual

/-- Every object of a footprint can be reached. -/
theorem Owns.reaches_of_mem {id : ObjectId} {t : Tree} {foot : List ObjectId}
    (ho : Owns h id t foot) : ∀ i ∈ foot, h.Reaches id i := by
  match ho with
  | .string ho => exact List.forall_mem_singleton.2 .refl
  | .array ho hparts =>
    refine List.forall_mem_cons.2 ⟨.refl, fun i hi => ?_⟩
    obtain ⟨j, hj, hreaches⟩ := hparts.reaches_of_mem i hi
    exact .head (by rwa [ho]) hreaches
  | .dict ho hkeys hparts =>
    refine List.forall_mem_cons.2 ⟨.refl, fun i hi => ?_⟩
    obtain ⟨j, hj, hreaches⟩ := hparts.reaches_of_mem i hi
    refine .head ?_ hreaches
    rwa [ho, Content.parts, Dict.values, Dict.entries_ofList]

theorem OwnsAll.reaches_of_mem {ids : List ObjectId} {ts : List Tree} {feet : List ObjectId}
    (hs : OwnsAll h ids ts feet) : ∀ i ∈ feet, ∃ j ∈ ids, h.Reaches j i := by
  match hs with
  | .nil => exact fun i hi => absurd hi List.not_mem_nil
  | .cons ho hs =>
    refine List.forall_mem_append.2 ⟨fun i hi => ?_, fun i hi => ?_⟩
    · exact ⟨_, List.mem_cons_self, ho.reaches_of_mem i hi⟩
    · obtain ⟨j, hj, hreaches⟩ := hs.reaches_of_mem i hi
      exact ⟨j, List.mem_cons_of_mem _ hj, hreaches⟩

end

/-- The footprint of an owned object is what can be reached from it. -/
theorem Owns.mem_iff_reaches {id : ObjectId} {t : Tree} {foot : List ObjectId}
    (ho : Owns h id t foot) {i : ObjectId} : i ∈ foot ↔ h.Reaches id i :=
  ⟨ho.reaches_of_mem i, ho.mem_of_reaches⟩

/-- Below an owned object there are its parts and theirs. -/
theorem Owns.exists_below {id : ObjectId} {t : Tree} {foot : List ObjectId}
    (ho : h.Owns id t foot) :
    ∃ below, foot = id :: below ∧ (∀ i ∈ (h.object id).content.parts, i ∈ below) ∧
      ∀ i ∈ below, ∀ j ∈ (h.object i).content.parts, j ∈ below := by
  cases ho with
  | string ho => exact ⟨[], rfl, by rw [ho]; exact fun i hi => hi, nofun⟩
  | array ho hparts => exact ⟨_, rfl, by rw [ho]; exact hparts.subset, hparts.mem_of_mem_parts⟩
  | dict ho hkeys hparts =>
    refine ⟨_, rfl, ?_, hparts.mem_of_mem_parts⟩
    rw [ho, Content.parts, Dict.values, Dict.entries_ofList]
    exact hparts.subset

/-- Owned objects with different footprints are different, and none of them is reached from a part
of another one or of itself. -/
theorem OwnsAll.apart {ids feet : List ObjectId} {ts : List Tree} (hs : h.OwnsAll ids ts feet)
    (hnodup : feet.Nodup) :
    ids.Nodup ∧ ∀ i ∈ ids, ∀ part ∈ (h.object i).content.parts, ∀ j ∈ ids,
      ¬ h.Reaches part j := by
  induction ids generalizing ts feet with
  | nil => exact ⟨List.nodup_nil, nofun⟩
  | cons id ids ih =>
    cases hs with
    | @cons _ _ foot _ _ rest ho hs =>
      obtain ⟨hfoot, hrest, hdisjoint⟩ := List.nodup_append'.1 hnodup
      obtain ⟨below, rfl, hparts, hbelow⟩ := ho.exists_below
      obtain ⟨hid, hapart⟩ := ih hs hrest
      have hnotin : id ∉ rest := hdisjoint List.mem_cons_self
      have hdisjoint' (j : ObjectId) (hj : j ∈ rest) : j ∉ below := fun h =>
        hdisjoint (List.mem_cons_of_mem _ h) hj
      refine ⟨List.nodup_cons.2 ⟨fun h => hnotin (hs.subset h), hid⟩, ?_⟩
      refine List.forall_mem_cons.2 ⟨fun part hpart j hj hreaches => ?_,
        fun i hi part hpart => List.forall_mem_cons.2 ⟨fun hreaches => ?_, hapart i hi part hpart⟩⟩
      · have hmem := hreaches.mem_of_closed hbelow (hparts part hpart)
        rcases List.mem_cons.1 hj with rfl | hj
        · exact (List.nodup_cons.1 hfoot).1 hmem
        · exact hdisjoint' j (hs.subset hj) hmem
      · have hpart' : part ∈ rest := hs.mem_of_mem_parts i (hs.subset hi) part hpart
        exact hnotin (hreaches.mem_of_closed hs.mem_of_mem_parts hpart')

/-! ### Trees -/

/-- Entries are their keys and their values. -/
private theorem map_eq_zip {α β : Type} (f : α → β) (l : List (Text × α)) :
    (l.map fun e => (e.1, f e.2)) = (l.map (·.1)).zip ((l.map (·.2)).map f) := by
  induction l with
  | nil => rfl
  | cons e l ih => simp only [List.map_cons, List.zip_cons_cons, ih]

mutual

/-- An owned object is shown as its tree, arranged in the order of reading. -/
theorem Owns.treeTo_eq {id : ObjectId} {t : Tree} {foot : List ObjectId} (ho : Owns h id t foot)
    (ht : t.UniqueKeys) {depth : Nat} (hdepth : foot.length ≤ depth) :
    h.treeTo depth id = t.arrange := by
  obtain ⟨depth, rfl⟩ : ∃ n, depth = n + 1 :=
    Nat.exists_eq_add_of_le' (Nat.le_trans (List.length_pos_of_mem ho.mem_self) hdepth)
  match ho with
  | .string ho => rw [treeTo, ho, Tree.arrange_string]
  | @Owns.array _ _ reversed items _ ho hparts =>
    have hreversed := hparts.map_treeTo_eq
      (fun t hmem => Tree.uniqueKeys_array.1 ht t (List.mem_reverse.1 hmem))
      (Nat.le_of_succ_le_succ hdepth)
    have hitems : reversed.reverse.map (h.treeTo depth) = items.map Tree.arrange := by
      rw [List.map_reverse, hreversed, List.map_reverse, List.reverse_reverse]
    rw [treeTo, ho, Tree.arrange_array, ← hitems]
  | @Owns.dict _ _ parts entries _ ho hkeys hparts =>
    obtain ⟨hnodup, hvalues⟩ := Tree.uniqueKeys_dict.1 ht
    have hvalues' := hparts.map_treeTo_eq (List.forall_mem_map.2 hvalues)
      (Nat.le_of_succ_le_succ hdepth)
    have hentries : (parts.map fun e => (e.1, h.treeTo depth e.2)) =
        entries.map fun e => (e.1, e.2.arrange) := by
      rw [map_eq_zip, hkeys, hvalues', ← map_eq_zip]
    rw [treeTo, ho, Tree.arrange_dict, ← hentries]
    simp only [Dict.toList_ofList (hkeys ▸ hnodup)]
    rw [List.map_mergeSort (r := Dict.byBytes) (s := Dict.byBytes)
      (f := fun e : Text × ObjectId => (e.1, h.treeTo depth e.2)) fun _ _ _ _ => rfl]

theorem OwnsAll.map_treeTo_eq {ids : List ObjectId} {ts : List Tree} {feet : List ObjectId}
    (hs : OwnsAll h ids ts feet) (hts : ∀ t ∈ ts, t.UniqueKeys) {depth : Nat}
    (hdepth : feet.length ≤ depth) : ids.map (h.treeTo depth) = ts.map Tree.arrange := by
  match hs with
  | .nil => rfl
  | .cons ho hs =>
    obtain ⟨ht, hts⟩ := List.forall_mem_cons.1 hts
    rw [List.length_append] at hdepth
    rw [List.map_cons, List.map_cons, ho.treeTo_eq ht (by omega), hs.map_treeTo_eq hts (by omega)]

end

/-- **The tree of an owned object** is the tree of which it holds the values, arranged in the order
of reading. -/
theorem Owns.tree_eq {id : ObjectId} {t : Tree} {foot : List ObjectId} (ho : Owns h id t foot)
    (hnodup : foot.Nodup) (ht : t.UniqueKeys) : h.tree id = t.arrange := by
  refine ho.treeTo_eq ht (Nat.le_succ_of_le ?_)
  have hsub : foot ⊆ List.range h.objects.size := fun i hi =>
    List.mem_range.2 (lt_size_of_refs (by rw [ho.refs_eq_one i hi]; exact Nat.one_pos))
  simpa using (List.subperm_of_subset hnodup hsub).length_le

end PropertyList.Heap
