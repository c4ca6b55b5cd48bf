import Mathlib.Data.List.Basic
import PropertyList.Buffer.Basic

/-!
# What buffers contain

A buffer contains the bytes in front of its length. Appending writes bytes into the cells behind
them, and what earlier use has left there does not show.

## Main definitions

* `Buffer.Contains`

## Main results

* `toList_overwrite`, `size_overwrite`
* `Buffer.Contains.offer_of_le`, `Buffer.Contains.truncate`
-/

namespace PropertyList

private theorem toList_overwrite_cell {store : Array UInt8} {i : Nat} (hi : i ≤ store.size)
    (b : UInt8) :
    (if i < store.size then store.setIfInBounds i b else store.push b).toList =
      (store.toList.take i ++ [b]) ++ store.toList.drop (i + 1) := by
  split_ifs with hlt
  · rw [Array.toList_setIfInBounds, List.set_eq_take_append_cons_drop, if_pos (by simpa using hlt),
      List.append_assoc, List.singleton_append]
  · obtain rfl : i = store.size := Nat.le_antisymm hi (Nat.not_lt.1 hlt)
    rw [Array.toList_push, List.take_of_length_le (by simp), List.drop_eq_nil_of_le (by simp),
      List.append_nil]

/-- Overwriting cells leaves those in front of them and behind them as they are. -/
theorem toList_overwrite {store : Array UInt8} {i : Nat} (hi : i ≤ store.size) (bytes : Bytes) :
    (overwrite store i bytes).toList =
      store.toList.take i ++ bytes ++ store.toList.drop (i + bytes.length) := by
  induction bytes generalizing store i with
  | nil => rw [overwrite, List.append_nil, List.length_nil, Nat.add_zero, List.take_append_drop]
  | cons b bytes ih =>
    have hcell := toList_overwrite_cell hi b
    have hfirst : (store.toList.take i ++ [b]).length = i + 1 := by
      rw [List.length_append, List.length_take, Array.length_toList, Nat.min_eq_left hi]
      rfl
    have hrest : i + 1 + (i + 1 + bytes.length - (i + 1)) = i + (b :: bytes).length := by
      rw [List.length_cons]
      omega
    rw [overwrite, ih, hcell, List.take_left' hfirst, List.drop_append, hfirst,
      List.drop_eq_nil_of_le (by omega), List.nil_append, List.drop_drop, hrest]
    · simp
    · rw [← Array.length_toList, hcell, List.length_append, hfirst]
      exact Nat.le_add_right _ _

theorem size_overwrite {store : Array UInt8} {i : Nat} (hi : i ≤ store.size) (bytes : Bytes) :
    (overwrite store i bytes).size = max store.size (i + bytes.length) := by
  rw [← Array.length_toList, toList_overwrite hi, List.length_append, List.length_append,
    List.length_take, List.length_drop, Array.length_toList]
  omega

namespace Buffer

/-- A buffer contains the bytes that the cells in front of its length hold. -/
def Contains (b : Buffer) (bytes : Bytes) : Prop :=
  ∃ store, b.store = some store ∧ b.length ≤ store.size ∧ store.toList.take b.length = bytes

namespace Contains

variable {b : Buffer} {bytes more : Bytes}

theorem length_eq (h : b.Contains bytes) : b.length = bytes.length := by
  obtain ⟨store, -, hle, rfl⟩ := h
  rw [List.length_take, Array.length_toList, Nat.min_eq_left hle]

theorem value_eq (h : b.Contains bytes) : b.value = .ok bytes := by
  obtain ⟨store, hstore, -, rfl⟩ := h
  rw [value, hstore]

/-- Going back to a smaller length leaves the bytes in front of it. -/
theorem truncate (h : b.Contains (bytes ++ more)) :
    Contains { b with length := bytes.length } bytes := by
  have hlength := h.length_eq
  obtain ⟨store, hstore, hle, htake⟩ := h
  rw [List.length_append] at hlength
  refine ⟨store, hstore, ?_, ?_⟩
  · show bytes.length ≤ store.size
    omega
  · show store.toList.take bytes.length = bytes
    have h := congrArg (List.take bytes.length) htake
    rwa [List.take_take, Nat.min_eq_left (by omega), List.take_left' rfl] at h

/-- Bytes that fit are written into the cells from the length on. -/
theorem offer_of_le (h : b.Contains bytes) (hfits : bytes.length + more.length ≤ b.capacity) :
    ∃ store b', b.store = some store ∧ b.length ≤ store.size ∧ b.offer more = (b', true) ∧
      b' = { b with
        store := some (overwrite store b.length more)
        length := b.length + more.length } ∧
      b'.Contains (bytes ++ more) := by
  have hlength := h.length_eq
  obtain ⟨store, hstore, hle, rfl⟩ := h
  have hoffer : b.fits more = true := by
    rw [fits, decide_eq_true_eq, hlength]
    exact hfits
  have hwritten : (store.toList.take b.length ++ more).length = b.length + more.length := by
    rw [List.length_append, ← hlength]
  refine ⟨store, _, hstore, hle, ?_, rfl, _, rfl, ?_, ?_⟩
  · rw [Buffer.offer, if_pos hoffer, hstore]
    rfl
  · show b.length + more.length ≤ _
    rw [← Array.length_toList, toList_overwrite hle, List.length_append, hwritten]
    exact Nat.le_add_right _ _
  · show List.take (b.length + more.length) _ = _
    rw [toList_overwrite hle, List.take_left' hwritten]

/-- Bytes that do not fit are refused. -/
theorem offer_of_lt (h : b.Contains bytes) (hfits : b.capacity < bytes.length + more.length) :
    b.offer more = (b, false) := by
  have hoffer : ¬ b.fits more = true := by
    rw [fits, decide_eq_true_eq, h.length_eq]
    exact Nat.not_le.2 hfits
  rw [Buffer.offer, if_neg hoffer]

end Contains

end Buffer

end PropertyList
