import PropertyList.Proofs.Record.Encoding

/-!
# Looking up what has been written

A dictionary that encoding has made is owned, and its entries can be looked up: under each key of
the descriptor there is the tree that the value of the field was written as, or nothing if the key
is marked as absent.

## Main results

* `Heap.Owns.entry?_eq_none`, `Heap.Owns.exists_entry?`
* `Field.AllWritten.lookup_cases`, `Field.AllWritten.entry?_cases`
-/

namespace PropertyList

/-! ### Owned dictionaries -/

namespace Heap

variable {h : Heap} {id : ObjectId} {foot : List ObjectId} {entries : List (Text × Tree)}

theorem Owns.string?_eq {s : Text} (ho : h.Owns id (.string s) foot) : h.string? id = some s := by
  rw [string?, (owns_string.1 ho).2]

/-- What is looked up in a list of objects with keys is owned. -/
theorem OwnsAll.lookup_cases {parts : List (Text × ObjectId)} {feet : List ObjectId}
    (hkeys : parts.map (·.1) = entries.map (·.1))
    (hparts : h.OwnsAll (parts.map (·.2)) (entries.map (·.2)) feet) (key : Text) :
    (entries.lookup key = none ∧ parts.lookup key = none) ∨
      ∃ t i foot, entries.lookup key = some t ∧ parts.lookup key = some i ∧ h.Owns i t foot := by
  induction parts generalizing entries feet with
  | nil =>
    obtain rfl : entries = [] := List.map_eq_nil_iff.1 hkeys.symm
    exact .inl ⟨rfl, rfl⟩
  | cons part parts ih =>
    cases entries with
    | nil => cases hkeys
    | cons e entries =>
      obtain ⟨hkey, hkeys⟩ := List.cons.inj hkeys
      obtain ⟨_, _, -, ho, hparts⟩ := ownsAll_cons.1 hparts
      rw [List.lookup_cons, List.lookup_cons, show part.1 = e.1 from hkey]
      cases key == e.1 with
      | true => exact .inr ⟨_, _, _, rfl, rfl, ho⟩
      | false => exact ih hkeys hparts

/-- What is under a key of an owned dictionary is owned. -/
theorem Owns.entry?_cases (ho : h.Owns id (.dict entries) foot) (key : Text) :
    (entries.lookup key = none ∧ h.entry? (some id) key = none) ∨
      ∃ t i foot, entries.lookup key = some t ∧ h.entry? (some id) key = some i ∧
        h.Owns i t foot := by
  obtain ⟨parts, feet, -, hobject, hkeys, hparts⟩ := owns_dict.1 ho
  have hentry : h.entry? (some id) key = parts.lookup key := by
    rw [ entry?, Option.bind_some, dict?, hobject]
    exact congrArg (List.lookup key) (Dict.entries_ofList parts)
  rw [hentry]
  exact hparts.lookup_cases hkeys key

theorem Owns.entry?_eq_none (ho : h.Owns id (.dict entries) foot) {key : Text}
    (hkey : entries.lookup key = none) : h.entry? (some id) key = none := by
  obtain ⟨-, hentry⟩ | ⟨t, i, foot, hlookup, -, -⟩ := ho.entry?_cases key
  · exact hentry
  · rw [hkey] at hlookup
    cases hlookup

theorem Owns.exists_entry? (ho : h.Owns id (.dict entries) foot) {key : Text} {t : Tree}
    (hkey : entries.lookup key = some t) :
    ∃ i foot', h.entry? (some id) key = some i ∧ h.Owns i t foot' := by
  obtain ⟨hlookup, -⟩ | ⟨u, i, foot', hlookup, hentry, hi⟩ := ho.entry?_cases key
  · rw [hkey] at hlookup
    cases hlookup
  · rw [hkey] at hlookup
    cases hlookup
    exact ⟨i, foot', hentry, hi⟩

end Heap

/-! ### Written records -/

namespace Field

/-- Under the key of a field there is what its value was written as, or nothing if the key is marked
as absent. -/
theorem AllWritten.lookup_cases {record : Value} {fields : List Field}
    {entries : List (Text × Tree)} (hwritten : AllWritten record fields entries)
    (hnodup : (fields.map key).Nodup) :
    ∀ f ∈ fields,
      f.slot.Counts record false ∧ entries.lookup f.key = none ∨
        f.slot.Counts record true ∧ ∃ v t, record.attribute? f.slot.name = some v ∧
          f.WrittenAs v t ∧ entries.lookup f.key = some t := by
  induction fields generalizing entries with
  | nil => exact fun f hf => absurd hf List.not_mem_nil
  | cons f fields ih =>
    obtain ⟨own, rest, rfl, hown, hrest⟩ := hwritten
    rw [List.map_cons, List.nodup_cons] at hnodup
    refine List.forall_mem_cons.2 ⟨?_, fun g hg => ?_⟩
    · have hnone : rest.lookup f.key = none :=
        lookup_of_notMem fun h => hnodup.1 (hrest.map_fst_sublist.subset h)
      obtain ⟨hcounts, rfl⟩ | ⟨hcounts, v, t, hv, ht, rfl⟩ := hown
      · exact .inl ⟨hcounts, hnone⟩
      · exact .inr ⟨hcounts, v, t, hv, ht, List.lookup_cons_self⟩
    · have hnone : own.lookup g.key = none := lookup_of_notMem fun h => by
        have hkey : g.key = f.key := List.mem_singleton.1 (hown.map_fst_sublist.subset h)
        exact hnodup.1 (hkey ▸ List.mem_map_of_mem hg)
      rw [List.lookup_append, hnone, Option.none_or]
      exact ih hrest hnodup.2 g hg

/-- The same, looked up in the dictionary itself. -/
theorem AllWritten.entry?_cases {record : Value} {fields : List Field}
    {entries : List (Text × Tree)} (hwritten : AllWritten record fields entries)
    (hnodup : (fields.map key).Nodup) {h : Heap} {id : ObjectId} {foot : List ObjectId}
    (howns : h.Owns id (.dict entries) foot) :
    ∀ f ∈ fields,
      f.slot.Counts record false ∧ h.entry? (some id) f.slot.key = none ∨
        f.slot.Counts record true ∧ ∃ v t i foot', record.attribute? f.slot.name = some v ∧
          f.WrittenAs v t ∧ h.entry? (some id) f.slot.key = some i ∧ h.Owns i t foot' := by
  intro f hf
  obtain ⟨hcounts, hlookup⟩ | ⟨hcounts, v, t, hv, ht, hlookup⟩ := hwritten.lookup_cases hnodup f hf
  · exact .inl ⟨hcounts, howns.entry?_eq_none hlookup⟩
  · obtain ⟨i, foot', hentry, hi⟩ := howns.exists_entry? hlookup
    exact .inr ⟨hcounts, v, t, i, foot', hv, ht, hentry, hi⟩

end Field

end PropertyList
