import PropertyList.Proofs.Record.RoundTrip

/-!
# The objects of encoding

Encoding makes objects from the inside out: the value of a field is an object of its own before it
is handed over to its dictionary. The dictionary of a record that is encoded owns everything that
has been made for it, so there are as many new objects in use as its tree has values. A failure
finds a part of this made, at any depth, and nothing of it stays.

## Main results

* `Heap.Holds.reaches_root` : the objects that are reached from what alone is held.
* `Field.AllWritten.uniqueKeys`
* `Descriptor.encode_leaks_nothing` : what becomes of the objects.
-/

namespace PropertyList

/-- Where the only reference held is one to the root of a tree, the objects that have come into use
are those that are reached from the root, one for each value of its tree. -/
theorem Heap.Holds.reaches_root {base h : Heap} {root : ObjectId} {t : Tree} {feet : List ObjectId}
    (hh : base.Holds h [root] [t] feet) (ht : t.UniqueKeys) :
    (∀ id, id ∈ feet ↔ h.Reaches root id) ∧ feet.length = (h.tree root).size ∧
      ∀ id ∈ feet, (h.object id).refs = 1 := by
  obtain ⟨foot, _, rfl, ho, hnil⟩ := ownsAll_cons.1 hh.owns
  cases hnil
  rw [List.append_nil]
  refine ⟨fun id => ho.mem_iff_reaches, ?_, ho.refs_eq_one⟩
  rw [ho.tree_eq (List.nodup_append'.1 hh.nodup).1 ht, Tree.size_arrange, ho.length_eq]

namespace Field

mutual

/-- What is written for a value has different keys at every level. -/
theorem uniqueKeys_of_writtenAs : (f : Field) → f.Every DistinctKeys → ∀ {v : Value} {t : Tree},
    f.WrittenAs v t → t.UniqueKeys
  | scalar _ _ _, _, _, _, ⟨_, _, _, rfl⟩ => fun _ hkeys => absurd hkeys List.not_mem_nil
  | nested _ fields, hkeys, _, _, ⟨_, hwritten, rfl⟩ =>
    Tree.uniqueKeys_dict.2 ⟨hkeys.1.sublist hwritten.map_fst_sublist,
      uniqueKeys_of_allWritten fields hkeys.2 hwritten⟩

/-- The values of the entries that are written for a record have different keys at every level. -/
theorem uniqueKeys_of_allWritten : (fields : List Field) → AllEvery DistinctKeys fields →
    ∀ {record : Value} {entries : List (Text × Tree)}, AllWritten record fields entries →
      ∀ e ∈ entries, e.2.UniqueKeys
  | [], _, _, _, rfl => fun _ he => absurd he List.not_mem_nil
  | f :: fields, hkeys, _, _, ⟨_, _, rfl, hown, hrest⟩ => by
    refine List.forall_mem_append.2 ⟨?_, uniqueKeys_of_allWritten fields hkeys.2 hrest⟩
    obtain ⟨-, rfl⟩ | ⟨-, v, t, -, ht, rfl⟩ := hown
    · exact fun _ he => absurd he List.not_mem_nil
    · exact List.forall_mem_singleton.2 (uniqueKeys_of_writtenAs f hkeys.1 ht)

end

/-- The dictionary of a record has different keys at every level. -/
theorem AllWritten.uniqueKeys {record : Value} {fields : List Field} {entries : List (Text × Tree)}
    (hwritten : AllWritten record fields entries) (hnodup : (fields.map key).Nodup)
    (hkeys : AllEvery DistinctKeys fields) : (Tree.dict entries).UniqueKeys :=
  Tree.uniqueKeys_dict.2
    ⟨hnodup.sublist hwritten.map_fst_sublist, uniqueKeys_of_allWritten fields hkeys hwritten⟩

end Field

namespace Descriptor

/-- **Encoding leaks nothing.** Whatever attributes a record has, if it is encoded, the objects in
use are those from before and one for each value of the tree of the dictionary, and there is one
reference to each of these. If encoding fails, everything that was allocated is destroyed. The
objects from before stay as they were in either case. -/
theorem encode_leaks_nothing {d : Descriptor}
    (hplain : Field.AllEvery Field.NoCallbacks d.fields) (record : Value) (s : Store) :
    match d.encode record s with
    | .ok root s' =>
      (∃ nodes : List ObjectId, nodes.Nodup ∧ (∀ id, id ∈ nodes ↔ s'.heap.Reaches root id) ∧
        nodes.length = (s'.heap.tree root).size ∧ s'.heap.live = s.heap.live + nodes.length ∧
        (∀ id ∈ nodes, s.heap.objects.size ≤ id ∧ (s'.heap.object id).refs = 1) ∧
        ∀ id, s.heap.objects.size ≤ id → id ∉ nodes → s'.heap.destroyed id) ∧
      ∀ id < s.heap.objects.size, s'.heap.object id = s.heap.object id
    | .error _ s' =>
      s'.heap.live = s.heap.live ∧ (∀ id, s.heap.objects.size ≤ id → s'.heap.destroyed id) ∧
      ∀ id < s.heap.objects.size, s'.heap.object id = s.heap.object id := by
  obtain ⟨root, s', hencode, entries, nodes, hwritten, hh⟩ | ⟨failure, s', hencode, -, hh⟩ :=
    ends_iff.1 (ends_encode_of_noCallbacks hplain record s)
  · rw [hencode]
    obtain ⟨hreaches, hlength, hrefs⟩ :=
      hh.reaches_root (hwritten.uniqueKeys d.nodup_keys d.distinctKeys)
    exact ⟨⟨nodes, hh.nodup, hreaches, hlength, hh.live_eq,
      fun id hid => ⟨hh.le_of_mem id hid, hrefs id hid⟩,
      fun id hle hid => beq_iff_eq.2 (hh.refs_eq_zero id hle hid)⟩, hh.object_eq⟩
  · rw [hencode]
    exact ⟨hh.live_eq, fun id hid => beq_iff_eq.2 (hh.refs_eq_zero id hid List.not_mem_nil),
      hh.object_eq⟩

/-- A book whose number of pages is none. -/
def torn : Value :=
  .record [("title", .text "Ulysses"), ("mark", .text "PR6019"), ("has_copies", .bool false),
    ("has_extent", .bool true), ("extent", .record [("pages", .text "many")])]

/-- Five objects come into use for a book. For one whose number of pages is none, four are made and
all of them are destroyed. -/
theorem encode_leaks_nothing_book :
    Field.AllEvery Field.NoCallbacks book.fields ∧
    (∃ root s', book.encode ulysses .empty = .ok root s' ∧ (s'.heap.tree root).size = 5 ∧
      s'.heap.live = 5) ∧
    ∃ failure s', book.encode torn .empty = .error failure s' ∧ s'.heap.objects.size = 4 ∧
      s'.heap.live = 0 ∧ ∀ id, s'.heap.destroyed id := by
  have hplain : Field.AllEvery Field.NoCallbacks book.fields :=
    ⟨trivial, trivial, trivial, ⟨trivial, trivial, trivial⟩, trivial⟩
  refine ⟨hplain, ?_, ?_⟩
  · have hleaks := encode_leaks_nothing hplain ulysses .empty
    have hrun : (match book.encode ulysses .empty with
      | .ok root s' => some (s'.heap.tree root).size
      | .error _ _ => none) = some 5 := by decide +kernel
    cases hencode : book.encode ulysses .empty with
    | error _ _ =>
      rw [hencode] at hrun
      cases hrun
    | ok root s' =>
      rw [hencode] at hleaks hrun
      have hsize := Option.some.inj hrun
      obtain ⟨⟨nodes, -, -, hlength, hlive, -⟩, -⟩ := hleaks
      exact ⟨root, s', rfl, hsize, by rw [hlive, hlength, hsize]; rfl⟩
  · have hleaks := encode_leaks_nothing hplain torn .empty
    have hrun : (match book.encode torn .empty with
      | .ok _ _ => none
      | .error _ s' => some s'.heap.objects.size) = some 4 := by decide +kernel
    cases hencode : book.encode torn .empty with
    | ok _ _ =>
      rw [hencode] at hrun
      cases hrun
    | error failure s' =>
      rw [hencode] at hleaks hrun
      obtain ⟨hlive, hdestroyed, -⟩ := hleaks
      exact ⟨failure, s', rfl, Option.some.inj hrun, hlive,
        fun id => hdestroyed id (Nat.zero_le id)⟩

end Descriptor

end PropertyList
