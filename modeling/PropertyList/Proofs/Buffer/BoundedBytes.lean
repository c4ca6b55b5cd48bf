import PropertyList.Proofs.Buffer.Contents

/-!
# Buffers as bounded byte strings

To its user a buffer is a byte string with a capacity and a maximum. The store behind it has cells
that earlier use has filled and that are no part of the byte string, and the length says where they
start. This is a refinement: what an operation of a buffer answers and what the buffer is afterwards
is what the operation of the byte string says, whatever those cells hold.

There are as many cells as the capacity says at any time. Appending writes over some of them and
leaves the others as they are, and enlarging puts zeros behind them.

## Main definitions

* `BoundedBytes`, `BoundedBytes.append`, `BoundedBytes.grow`, `BoundedBytes.clear`
* `Buffer.Shows`, `Buffer.Refines`

## Main results

* `Buffer.Shows.unique`
* `Buffer.Shows.offer`, `Buffer.Shows.grow`, `Buffer.Shows.clear`
* `Buffer.Shows.length_cells`, `Buffer.Shows.cells_offer`, `Buffer.Shows.cells_grow`
-/

namespace PropertyList

/-- A byte string with a bound on its length and a limit up to which the bound can be raised. -/
@[ext]
structure BoundedBytes where
  bytes : Bytes
  capacity : Nat
  maxCapacity : Nat
  length_le : bytes.length ≤ capacity
  capacity_le : capacity ≤ maxCapacity
  /-- Doubling gets nowhere from nothing. -/
  capacity_pos : 0 < maxCapacity → 0 < capacity

namespace BoundedBytes

/-- The byte string with `more` behind it. -/
def extend (v : BoundedBytes) (more : Bytes)
    (hle : v.bytes.length + more.length ≤ v.capacity) : BoundedBytes where
  bytes := v.bytes ++ more
  capacity := v.capacity
  maxCapacity := v.maxCapacity
  length_le := by rwa [List.length_append]
  capacity_le := v.capacity_le
  capacity_pos := v.capacity_pos

/-- Appends `more` if it fits and tells whether it does. -/
def append (v : BoundedBytes) (more : Bytes) : BoundedBytes × Bool :=
  if hle : v.bytes.length + more.length ≤ v.capacity then (v.extend more hle, true) else (v, false)

/-- The byte string with a larger bound. -/
def enlarge (v : BoundedBytes) (capacity : Nat) (hle : v.capacity ≤ capacity)
    (hmax : capacity ≤ v.maxCapacity) : BoundedBytes where
  bytes := v.bytes
  capacity := capacity
  maxCapacity := v.maxCapacity
  length_le := Nat.le_trans v.length_le hle
  capacity_le := hmax
  capacity_pos := fun hpos => Nat.lt_of_lt_of_le (v.capacity_pos hpos) hle

/-- Doubles the bound or raises it to the limit, and tells whether it is not there yet. -/
def grow (v : BoundedBytes) : BoundedBytes × Bool :=
  if v.capacity < v.maxCapacity then
    (v.enlarge (min (2 * v.capacity) v.maxCapacity)
      (Nat.le_min.2 ⟨Nat.le_mul_of_pos_left _ Nat.two_pos, v.capacity_le⟩) (Nat.min_le_right _ _),
      true)
  else (v, false)

theorem capacity_le_grow (v : BoundedBytes) : v.capacity ≤ v.grow.1.capacity := by
  unfold grow
  split_ifs
  · exact Nat.le_min.2 ⟨Nat.le_mul_of_pos_left _ Nat.two_pos, v.capacity_le⟩
  · exact Nat.le_refl _

/-- Forgets the bytes. -/
def clear (v : BoundedBytes) : BoundedBytes where
  bytes := []
  capacity := v.capacity
  maxCapacity := v.maxCapacity
  length_le := Nat.zero_le _
  capacity_le := v.capacity_le
  capacity_pos := v.capacity_pos

end BoundedBytes

namespace Buffer

/-- A buffer shows a byte string: it contains the bytes, and has its capacities and no more cells than
the capacity. -/
structure Shows (b : Buffer) (v : BoundedBytes) : Prop where
  contains : b.Contains v.bytes
  size_le : ∀ store, b.store = some store → store.size ≤ v.capacity
  capacity_eq : b.capacity = v.capacity
  maxCapacity_eq : b.maxCapacity = v.maxCapacity

/-- An operation of a buffer does what the operation of a byte string does: the answers are the same
and the buffer shows the byte string afterwards. -/
def Refines {α : Type} (r : Buffer × α) (s : BoundedBytes × α) : Prop :=
  r.2 = s.2 ∧ r.1.Shows s.1

/-- The capacity after `capacity` is the double or the maximum, whichever is smaller. -/
theorem nextCapacity_eq_min (capacity max : Nat) :
    nextCapacity capacity max = min (2 * capacity) max := by
  unfold nextCapacity
  split_ifs <;> omega

theorem cells_of_store {b : Buffer} {store : Array UInt8} (hstore : b.store = some store) :
    b.cells = some (store.toList ++ List.replicate (b.capacity - store.size) 0) := by
  rw [cells, hstore, Option.map_some]

namespace Shows

variable {b b' : Buffer} {v v' : BoundedBytes}

theorem value_eq (h : b.Shows v) : b.value = .ok v.bytes :=
  h.contains.value_eq

theorem length_eq (h : b.Shows v) : b.length = v.bytes.length :=
  h.contains.length_eq

/-- A buffer has as many cells as its capacity says. -/
theorem length_cells (h : b.Shows v) : ∃ cells, b.cells = some cells ∧ cells.length = b.capacity := by
  obtain ⟨store, hstore, -, -⟩ := h.contains
  have hsize := h.size_le store hstore
  refine ⟨_, cells_of_store hstore, ?_⟩
  rw [List.length_append, List.length_replicate, Array.length_toList, h.capacity_eq]
  omega

/-- The byte string that a buffer shows is given by its bytes and its capacities. -/
theorem unique (h : b.Shows v) (h' : b'.Shows v') (hvalue : b.value = b'.value)
    (hcapacity : b.capacity = b'.capacity) (hmax : b.maxCapacity = b'.maxCapacity) : v = v' := by
  rw [h.value_eq, h'.value_eq] at hvalue
  rw [h.capacity_eq, h'.capacity_eq] at hcapacity
  rw [h.maxCapacity_eq, h'.maxCapacity_eq] at hmax
  exact BoundedBytes.ext (Except.ok.inj hvalue) hcapacity hmax

/-! ### Operations -/

/-- Bytes are appended to the byte string, whatever the cells behind its length hold. -/
theorem offer (h : b.Shows v) (more : Bytes) : Refines (b.offer more) (v.append more) := by
  unfold BoundedBytes.append
  split_ifs with hle
  · have hle' : v.bytes.length + more.length ≤ b.capacity := h.capacity_eq ▸ hle
    obtain ⟨store, b', hstore, hlength, hoffer, rfl, hcontains⟩ := h.contains.offer_of_le hle'
    rw [hoffer]
    refine ⟨rfl, hcontains, fun written hwritten => ?_, h.capacity_eq, h.maxCapacity_eq⟩
    obtain rfl := Option.some.inj hwritten
    rw [size_overwrite hlength, h.length_eq]
    exact Nat.max_le.2 ⟨h.size_le store hstore, hle⟩
  · have hlt : b.capacity < v.bytes.length + more.length := h.capacity_eq ▸ Nat.not_le.1 hle
    rw [h.contains.offer_of_lt hlt]
    exact ⟨rfl, h⟩

theorem append_eq (h : b.Shows v) (more : Bytes) : b.append more = .ok (b.offer more) := by
  obtain ⟨store, hstore, -, -⟩ := h.contains
  rw [Buffer.append, hstore, Option.isNone_some, Bool.and_false, if_neg Bool.false_ne_true]

/-- A buffer is enlarged exactly if it does not have its maximum. -/
theorem grow (h : b.Shows v) : Refines b.grow v.grow := by
  have hpos := v.capacity_pos
  have hle := v.capacity_le
  unfold Buffer.grow BoundedBytes.grow
  simp only [nextCapacity_eq_min, h.capacity_eq, h.maxCapacity_eq]
  split_ifs with hnext hlt hlt
  · omega
  · exact ⟨rfl, h⟩
  · refine ⟨rfl, h.contains, fun store hstore => ?_, rfl, rfl⟩
    have hsize := h.size_le store hstore
    show store.size ≤ min (2 * v.capacity) v.maxCapacity
    omega
  · omega

theorem clear (h : b.Shows v) : b.clear.Shows v.clear := by
  obtain ⟨store, hstore, -, -⟩ := h.contains
  exact ⟨⟨store, hstore, Nat.zero_le _, rfl⟩, h.size_le, h.capacity_eq, h.maxCapacity_eq⟩

/-- Going back to the bytes there were before. -/
theorem truncate (h : b.Shows v) (h' : b'.Shows v') {more : Bytes}
    (hbytes : v'.bytes = v.bytes ++ more) (hcapacity : v'.capacity = v.capacity)
    (hmax : v'.maxCapacity = v.maxCapacity) : Shows { b' with length := b.length } v where
  contains := by
    have hcontains := h'.contains
    rw [hbytes] at hcontains
    rw [h.length_eq]
    exact hcontains.truncate
  size_le := fun store hstore => hcapacity ▸ h'.size_le store hstore
  capacity_eq := h'.capacity_eq.trans hcapacity
  maxCapacity_eq := h'.maxCapacity_eq.trans hmax

/-! ### Cells -/

/-- Bytes that fit are written over the cells from the length on. The cells in front of them and
behind them stay as they are, and there are as many as before. -/
theorem cells_offer (h : b.Shows v) {more : Bytes} (hfits : b.length + more.length ≤ b.capacity) :
    ∃ cells written, b.cells = some cells ∧ (b.offer more).1.cells = some written ∧
      written = cells.take b.length ++ more ++ cells.drop (b.length + more.length) ∧
      written.length = cells.length := by
  obtain ⟨store, b', hstore, hle, hoffer, rfl, -⟩ := h.contains.offer_of_le (h.length_eq ▸ hfits)
  obtain ⟨cells, hcells, hlength⟩ := h.length_cells
  obtain ⟨written, hwritten, hlength'⟩ := (h.offer more).2.length_cells
  rw [hoffer] at hwritten hlength' ⊢
  refine ⟨cells, written, hcells, hwritten, ?_, hlength'.trans hlength.symm⟩
  obtain rfl := Option.some.inj (hcells.symm.trans (cells_of_store hstore))
  obtain rfl := Option.some.inj (hwritten.symm.trans (cells_of_store rfl))
  have hsize : store.size ≤ b.capacity := h.capacity_eq ▸ h.size_le store hstore
  have hzeros : b.capacity - max store.size (b.length + more.length) =
      b.capacity - store.size - (b.length + more.length - store.toList.length) := by
    rw [@Array.length_toList _ store]
    omega
  rw [size_overwrite hle, hzeros, toList_overwrite hle, List.take_append_of_le_length hle,
    List.drop_append, List.drop_replicate, List.append_assoc]

/-- Enlarging leaves the cells as they are and puts zeros behind them. -/
theorem cells_grow (h : b.Shows v) :
    ∃ cells, b.cells = some cells ∧
      b.grow.1.cells = some (cells ++ List.replicate (b.grow.1.capacity - b.capacity) 0) := by
  obtain ⟨store, hstore, -, -⟩ := h.contains
  have hgrown : b.grow.1.store = some store := by
    rw [← hstore, Buffer.grow]
    split_ifs <;> rfl
  have hsize : store.size ≤ b.capacity := h.capacity_eq ▸ h.size_le store hstore
  have hcapacity : b.capacity ≤ b.grow.1.capacity := by
    rw [h.capacity_eq, h.grow.2.capacity_eq]
    exact v.capacity_le_grow
  have hzeros : b.grow.1.capacity - store.size =
      b.capacity - store.size + (b.grow.1.capacity - b.capacity) := by
    omega
  refine ⟨_, cells_of_store hstore, ?_⟩
  rw [cells_of_store hgrown, hzeros, ← List.replicate_append_replicate, List.append_assoc]

end Shows

/-! ### New buffers -/

/-- A buffer as it is made: empty, with a store of its own or over the store of someone else. -/
def IsNew (b : Buffer) : Prop :=
  (∃ initial max, create initial max = .ok b) ∨ ∃ store, b = wrap store

/-- A new buffer shows no bytes, and an unmanaged one has its maximum. -/
theorem IsNew.shows {b : Buffer} (h : b.IsNew) :
    ∃ v : BoundedBytes, b.Shows v ∧ v.bytes = [] ∧
      (b.unmanaged = true → v.capacity = v.maxCapacity) := by
  rcases h with ⟨initial, max, hcreate⟩ | ⟨store, rfl⟩
  · unfold create at hcreate
    split_ifs at hcreate with hcapacities
    obtain rfl := Except.ok.inj hcreate
    refine ⟨⟨[], initial.toNat, max.toNat, Nat.zero_le _, by omega, fun _ => by omega⟩, ?_, rfl,
      fun hunmanaged => absurd hunmanaged Bool.false_ne_true⟩
    exact ⟨⟨#[], rfl, Nat.le_refl 0, rfl⟩, fun store hstore => Option.some.inj hstore ▸ Nat.zero_le _,
      rfl, rfl⟩
  · refine ⟨⟨[], store.length, store.length, Nat.zero_le _, Nat.le_refl _, id⟩, ?_, rfl, fun _ => rfl⟩
    exact ⟨⟨store.toArray, rfl, Nat.zero_le _, rfl⟩,
      fun _ hstore => Option.some.inj hstore ▸ Nat.le_refl _, rfl, rfl⟩

end Buffer

end PropertyList
