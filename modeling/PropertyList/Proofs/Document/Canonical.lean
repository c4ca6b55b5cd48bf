import PropertyList.Proofs.Document.RoundTrip

/-!
# The bytes of a tree as its normal form

A rendering is parsed to the tree that was rendered, so different trees have different renderings.
Equal trees have the same one: whatever has been done to build an object, and however its parts are
shared, the entries of a dictionary are listed in the order of the bytes of their keys.

Whether two trees are equal can so be told from their bytes, as long as there are any. A tree has
none if a line break cannot be written or the limit is too low, and then different trees may fail in
the same way.

## Main results

* `Tree.eq_of_encode_render_eq` : different trees have different renderings.
* `Tree.same_iff_dump` : equal trees are those with the same bytes.
-/

namespace PropertyList.Tree

variable {t u : Tree}

/-- Different trees have different renderings, whatever the indentation of either. -/
theorem eq_of_encode_render_eq (ht : t.Ordered) (hu : u.Ordered) (htstable : t.Stable)
    (hustable : u.Stable) {indent level indent' level' : Int}
    (h : (t.render indent level).encode = (u.render indent' level').encode) : t = u := by
  obtain ⟨root, h₁, hparse, htree⟩ := Document.exists_parseBytes_encode_render ht
    htstable.not_colliding indent level .empty
  obtain ⟨root', h₂, hparse', htree'⟩ := Document.exists_parseBytes_encode_render hu
    hustable.not_colliding indent' level' .empty
  rw [h, hparse'] at hparse
  obtain ⟨rfl, rfl⟩ := EStateM.Result.ok.inj hparse
  rw [← recode_eq_self_iff.2 htstable, ← htree, htree', recode_eq_self_iff.2 hustable]

/-- **Equal trees are those with the same bytes.** Let every key and value of two trees be read back
as itself, however their objects were built. The trees are equal exactly if their renderings have
the same bytes, and equal trees are written alike or fail alike. A tree is written if its line
breaks can be and its rendering is within the limit, and another one is equal to it exactly if it is
written with the same bytes. -/
theorem same_iff_dump (ht : t.Built) (hu : u.Built) (htstable : t.Stable) (hustable : u.Stable)
    (indent level initial max : Int) :
    (t.same u ↔ (t.render indent level).encode = (u.render indent level).encode) ∧
    (t.same u → t.dump indent level initial max = u.dump indent level initial max) ∧
    (Buffer.AreCapacities initial max → t.Writable indent level →
      (t.render indent level).encode.length ≤ max →
        ∃ bytes, t.dump indent level initial max = .ok bytes) ∧
    ∀ bytes, t.dump indent level initial max = .ok bytes →
      (t.same u ↔ u.dump indent level initial max = .ok bytes) := by
  replace ht := built_iff_ordered.1 ht
  replace hu := built_iff_ordered.1 hu
  have hsame := same_iff_eq ht htstable.not_colliding hu
  have hrender : t.same u ↔ (t.render indent level).encode = (u.render indent level).encode := by
    rw [hsame]
    exact ⟨fun h => h ▸ rfl, eq_of_encode_render_eq ht hu htstable hustable⟩
  refine ⟨hrender, fun h => hsame.1 h ▸ rfl, fun hcapacities hwritable hle => ?_,
    fun bytes hbytes => ⟨fun h => ?_, fun h => ?_⟩⟩
  · exact ⟨_, dump_eq_ok_iff.2 ⟨hcapacities, hwritable, hle, rfl⟩⟩
  · rw [← hsame.1 h]
    exact hbytes
  · obtain ⟨-, -, -, rfl⟩ := dump_eq_ok_iff.1 hbytes
    obtain ⟨-, -, -, hrendered⟩ := dump_eq_ok_iff.1 h
    exact hrender.2 hrendered

/-- A dictionary that holds a string under two keys. -/
def sharing : List Operation :=
  [.string "x", .dict, .add 1 "b" 0, .add 1 "a" 0]

/-- A dictionary with the same keys, added in the other order, each with a string of its own. -/
def notSharing : List Operation :=
  [.dict, .string "x", .string "x", .add 0 "a" 2, .add 0 "b" 1]

/-- Both dictionaries are written with the same bytes. -/
theorem same_iff_dump_sharing :
    ((Heap.build sharing).tree 1).Built ∧ ((Heap.build notSharing).tree 0).Built ∧
    ((Heap.build sharing).tree 1).Stable ∧ ((Heap.build notSharing).tree 0).Stable ∧
    (Heap.build sharing).tree 1 = dict [("a", string "x"), ("b", string "x")] ∧
    ((Heap.build sharing).tree 1).dump 2 0 64 64 =
      ((Heap.build notSharing).tree 0).dump 2 0 64 64 := by
  have ht : ((Heap.build sharing).tree 1).Stable := by decide +kernel
  have hu : ((Heap.build notSharing).tree 0).Stable := by decide +kernel
  have hsame : ((Heap.build sharing).tree 1).same ((Heap.build notSharing).tree 0) := by
    decide +kernel
  refine ⟨⟨_, _, rfl⟩, ⟨_, _, rfl⟩, ht, hu, by decide +kernel, ?_⟩
  exact (same_iff_dump ⟨_, _, rfl⟩ ⟨_, _, rfl⟩ ht hu 2 0 64 64).2.1 hsame

/-- Two different arrays of one string each, with line breaks that cannot be written: both fail, and
in the same way. -/
theorem dump_oversized_breaks :
    (array [.string [.char 'a']]).Built ∧ (array [.string [.char 'b']]).Built ∧
    (array [.string [.char 'a']]).Stable ∧ (array [.string [.char 'b']]).Stable ∧
    ¬ ((array [.string [.char 'a']]).same (array [.string [.char 'b']]) ↔
      (array [.string [.char 'a']]).dump (-10 ^ 30) 0 1024 Buffer.unbounded =
        (array [.string [.char 'b']]).dump (-10 ^ 30) 0 1024 Buffer.unbounded) ∧
    ¬ ((array [.string [.char 'a']]).same (array [.string [.char 'a']]) ↔
      ∃ bytes,
        (array [.string [.char 'a']]).dump (-10 ^ 30) 0 1024 Buffer.unbounded = .ok bytes) := by
  have hcapacities : Buffer.AreCapacities 1024 Buffer.unbounded :=
    ⟨by decide, by decide, by decide⟩
  have ha : (array [.string [.char 'a']]).dump (-10 ^ 30) 0 1024 Buffer.unbounded =
      .error (.buffer .oversized) := dump_eq hcapacities
  have hb : (array [.string [.char 'b']]).dump (-10 ^ 30) 0 1024 Buffer.unbounded =
      .error (.buffer .oversized) := dump_eq hcapacities
  refine ⟨built_iff_ordered.2 (by decide), built_iff_ordered.2 (by decide), by decide +kernel,
    by decide +kernel, fun h => ?_, fun h => ?_⟩
  · exact absurd (h.2 (ha.trans hb.symm)) (by decide)
  · obtain ⟨bytes, hbytes⟩ := h.1 (by decide)
    rw [ha] at hbytes
    cases hbytes

end PropertyList.Tree
