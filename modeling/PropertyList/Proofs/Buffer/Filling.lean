import Mathlib.Algebra.Group.Nat.Defs
import Mathlib.Data.Nat.Size
import PropertyList.Buffer.Reading
import PropertyList.Proofs.Buffer.BoundedBytes

/-!
# Filling bounded byte strings

Reading takes the bytes of a source up to the maximum, in whatever portions the source gives them.
It fails if the maximum is reached, even if the source has no more bytes, and else ends as the source
does. The capacity is doubled as often as the bytes reach it.

## Main definitions

* `BoundedBytes.reach`, `BoundedBytes.read`

## Main results

* `Buffer.Shows.read`
-/

namespace PropertyList

namespace ByteSource

variable {s : ByteSource} {n : Nat}

private theorem takePortion_eq_nil {portions : List Bytes} (hn : 0 < n)
    (h : (takePortion n portions).1 = []) : portions.flatten = [] := by
  induction portions with
  | nil => rfl
  | cons portion portions ih =>
    cases portion with
    | nil => exact ih h
    | cons b portion =>
      obtain ⟨m, rfl⟩ := Nat.exists_eq_add_one_of_ne_zero (Nat.ne_of_gt hn)
      cases h

/-- A read that gives nothing though it is asked for something finds nothing. -/
theorem bytes_eq_nil_of_read (hn : 0 < n) (h : (s.read n).1 = []) : s.bytes = [] :=
  takePortion_eq_nil hn h

theorem length_read_le (s : ByteSource) (n : Nat) : (s.read n).1.length ≤ n := by
  unfold read
  dsimp only
  induction s.portions with
  | nil => exact Nat.zero_le n
  | cons portion portions ih =>
    cases portion with
    | nil => exact ih
    | cons b portion => exact List.length_take_le n _

end ByteSource

namespace BoundedBytes

/-! ### The capacity -/

/-- The capacity, doubled until `n` bytes do not fill it, but no more than the limit. -/
def reach (capacity max n : Nat) : Nat :=
  min (capacity * 2 ^ Nat.size (n / capacity)) max

variable {capacity max n : Nat}

theorem reach_le (capacity max n : Nat) : reach capacity max n ≤ max :=
  Nat.min_le_right _ _

theorem le_reach (hle : capacity ≤ max) (n : Nat) : capacity ≤ reach capacity max n :=
  Nat.le_min.2 ⟨Nat.le_mul_of_pos_right _ (Nat.two_pow_pos _), hle⟩

theorem le_reach_of_le (hpos : 0 < max → 0 < capacity) (hn : n ≤ max) :
    n ≤ reach capacity max n := by
  refine Nat.le_min.2 ⟨?_, hn⟩
  rcases Nat.eq_zero_or_pos capacity with rfl | hcapacity
  · omega
  · have hlt := (Nat.div_lt_iff_lt_mul hcapacity).1 (Nat.lt_size_self (n / capacity))
    rw [Nat.mul_comm]
    exact Nat.le_of_lt hlt

theorem reach_of_lt (hn : n < capacity) (hle : capacity ≤ max) : reach capacity max n = capacity := by
  rw [reach, Nat.div_eq_of_lt hn, Nat.size_zero, Nat.pow_zero, Nat.mul_one, Nat.min_eq_left hle]

private theorem size_div_two_add_one {m : Nat} (hm : 0 < m) : (m / 2).size + 1 = m.size := by
  have hbit : Nat.bit m.bodd m.div2 ≠ 0 := by
    rw [Nat.bit_bodd_div2]
    exact Nat.ne_of_gt hm
  have hsize := Nat.size_bit hbit
  rw [Nat.bit_bodd_div2, Nat.div2_val] at hsize
  exact hsize.symm

/-- Doubling a capacity that is filled changes nothing about where it comes to. -/
theorem reach_double (hpos : 0 < capacity) (hn : capacity ≤ n) :
    reach (min (2 * capacity) max) max n = reach capacity max n := by
  have hsize := size_div_two_add_one (Nat.div_pos hn hpos)
  have hreach : reach capacity max n =
      min (2 * capacity * 2 ^ (n / capacity / 2).size) max := by
    rw [reach, ← hsize, Nat.pow_succ, Nat.mul_comm 2 capacity, Nat.mul_assoc, Nat.mul_comm 2]
  rw [hreach]
  rcases Nat.le_total (2 * capacity) max with hle | hle
  · rw [Nat.min_eq_left hle, reach, Nat.div_div_eq_div_mul, Nat.mul_comm capacity]
  · have hpow := Nat.two_pow_pos (n / capacity / 2).size
    rw [Nat.min_eq_right hle, reach,
      Nat.min_eq_right (Nat.le_mul_of_pos_right _ (Nat.two_pow_pos _)),
      Nat.min_eq_right (Nat.le_trans hle (Nat.le_mul_of_pos_right _ hpow))]

/-! ### Reading -/

/-- Reads from a source of which these are the bytes and the end: takes as many as the limit allows,
tells how reading ends and what is left of the bytes. -/
def read (v : BoundedBytes) (bytes : Bytes) (ending : SourceEnd) :
    BoundedBytes × ReadOutcome × Bytes :=
  let room := v.maxCapacity - v.bytes.length
  let total := v.bytes ++ bytes.take room
  have htotal : total.length ≤ v.maxCapacity := by
    have hlength := v.length_le
    have hcapacity := v.capacity_le
    rw [List.length_append, List.length_take]
    omega
  ({ bytes := total
     capacity := reach v.capacity v.maxCapacity total.length
     maxCapacity := v.maxCapacity
     length_le := le_reach_of_le v.capacity_pos htotal
     capacity_le := reach_le _ _ _
     capacity_pos := fun hpos => Nat.lt_of_lt_of_le (v.capacity_pos hpos) (le_reach v.capacity_le _) },
    if v.maxCapacity ≤ v.bytes.length + bytes.length then .failed else ending.outcome,
    bytes.drop room)

variable {v : BoundedBytes}

/-- Nothing can be read when the limit is reached. -/
theorem read_of_full (hfull : v.bytes.length = v.maxCapacity) (bytes : Bytes) (ending : SourceEnd) :
    v.read bytes ending = (v, .failed, bytes) := by
  have hlength := v.length_le
  have hcapacity := v.capacity_le
  have hreach := le_reach hcapacity v.bytes.length
  have hreach' := reach_le v.capacity v.maxCapacity v.bytes.length
  refine Prod.ext (BoundedBytes.ext ?_ ?_ rfl) (Prod.ext ?_ ?_)
  · simp [read, hfull]
  · simp only [read, hfull, Nat.sub_self, List.take_zero, List.append_nil] at hreach hreach' ⊢
    omega
  · simp [read, hfull]
  · simp [read, hfull]

/-- When there is nothing to read, reading ends as the source does. -/
theorem read_nil (hlt : v.bytes.length < v.capacity) (ending : SourceEnd) :
    v.read [] ending = (v, ending.outcome, []) := by
  have hcapacity := v.capacity_le
  refine Prod.ext (BoundedBytes.ext ?_ ?_ rfl) (Prod.ext ?_ ?_)
  · simp [read]
  · simp only [read, List.take_nil, List.append_nil]
    exact reach_of_lt hlt hcapacity
  · exact if_neg (by rw [List.length_nil]; omega)
  · exact List.drop_nil

/-- Bytes that are read are appended. -/
theorem read_extend {chunk : Bytes} (hle : v.bytes.length + chunk.length ≤ v.capacity)
    (bytes : Bytes) (ending : SourceEnd) :
    (v.extend chunk hle).read bytes ending = v.read (chunk ++ bytes) ending := by
  have hcapacity := v.capacity_le
  have hroom : v.maxCapacity - v.bytes.length =
      chunk.length + (v.maxCapacity - (v.bytes ++ chunk).length) := by
    rw [List.length_append]
    omega
  have htotal : v.bytes ++ chunk ++ bytes.take (v.maxCapacity - (v.bytes ++ chunk).length) =
      v.bytes ++ (chunk ++ bytes).take (v.maxCapacity - v.bytes.length) := by
    rw [hroom, List.take_length_add_append, List.append_assoc]
  refine Prod.ext (BoundedBytes.ext htotal ?_ rfl) (Prod.ext ?_ ?_)
  · exact congrArg (reach v.capacity v.maxCapacity ·.length) htotal
  · simp only [read, extend, List.length_append, Nat.add_assoc]
  · show bytes.drop (v.maxCapacity - (v.bytes ++ chunk).length) =
      (chunk ++ bytes).drop (v.maxCapacity - v.bytes.length)
    rw [hroom, List.drop_length_add_append]

/-- A full byte string is read into as if its capacity were doubled already. -/
theorem read_grow (hfull : v.capacity ≤ v.bytes.length) (hlt : v.capacity < v.maxCapacity)
    (bytes : Bytes) (ending : SourceEnd) : v.grow.1.read bytes ending = v.read bytes ending := by
  rw [grow, if_pos hlt]
  refine Prod.ext (BoundedBytes.ext rfl ?_ rfl) rfl
  refine reach_double (v.capacity_pos (by omega)) ?_
  rw [List.length_append]
  exact Nat.le_trans hfull (Nat.le_add_right _ _)

end BoundedBytes

namespace Buffer

variable {b b' : Buffer} {v : BoundedBytes}

/-- A buffer has room for more bytes, after it is enlarged if it is full, or has its maximum. -/
theorem Shows.makeRoom (h : b.Shows v) :
    (b.makeRoom = none ∧ v.bytes.length = v.maxCapacity) ∨
    ∃ b' v', b.makeRoom = some b' ∧ b'.Shows v' ∧ v'.bytes.length < v'.capacity ∧
      ∀ bytes ending, v'.read bytes ending = v.read bytes ending := by
  have hlength := v.length_le
  have hcapacity := v.capacity_le
  by_cases hfull : b.isFull = true
  · have hfull' : v.capacity ≤ v.bytes.length := by
      rw [isFull, decide_eq_true_eq, h.capacity_eq, h.length_eq] at hfull
      exact hfull
    obtain ⟨hgrow, hshows⟩ := h.grow
    by_cases hlt : v.capacity < v.maxCapacity
    · refine Or.inr ⟨b.grow.1, v.grow.1, ?_, hshows, ?_, BoundedBytes.read_grow hfull' hlt⟩
      · rw [BoundedBytes.grow, if_pos hlt] at hgrow
        rw [Buffer.makeRoom, if_pos hfull]
        cases hb : b.grow with
        | mk larger grown =>
          rw [hb] at hgrow
          obtain rfl : grown = true := hgrow
          rfl
      · have hpos := v.capacity_pos (by omega)
        rw [BoundedBytes.grow, if_pos hlt]
        show v.bytes.length < min (2 * v.capacity) v.maxCapacity
        omega
    · refine Or.inl ⟨?_, by omega⟩
      rw [BoundedBytes.grow, if_neg hlt] at hgrow
      rw [Buffer.makeRoom, if_pos hfull]
      cases hb : b.grow with
      | mk larger grown =>
        rw [hb] at hgrow
        obtain rfl : grown = false := hgrow
        rfl
  · refine Or.inr ⟨b, v, ?_, h, ?_, fun _ _ => rfl⟩
    · rw [Buffer.makeRoom, if_neg hfull]
    · rw [isFull, decide_eq_true_eq, h.capacity_eq, h.length_eq] at hfull
      exact Nat.not_le.1 hfull

/-- **Reading fills the byte string.** However the source portions its bytes, reading does to a
buffer what it does to the byte string that the buffer shows. -/
theorem Shows.read (h : b.Shows v) (source : ByteSource) :
    Refines ((b.read source).buffer, (b.read source).outcome, (b.read source).rest.bytes)
      (v.read source.bytes source.ending) := by
  -- The induction is on the reads, and the byte string stays one from which reading leads to the
  -- same end.
  fun_induction Buffer.read b source generalizing v with
  | case1 b source hroom =>
    obtain ⟨-, hfull⟩ | ⟨b', v', hroom', -⟩ := h.makeRoom
    · rw [BoundedBytes.read_of_full hfull]
      exact ⟨rfl, h⟩
    · rw [hroom] at hroom'
      cases hroom'
  | case2 b source b₁ hroom rest hnone =>
    obtain ⟨hroom', -⟩ | ⟨b', v', hroom', h', hlt, hread⟩ := h.makeRoom
    · rw [hroom] at hroom'
      cases hroom'
    · obtain rfl : b₁ = b' := Option.some.inj (hroom.symm.trans hroom')
      have hpos : 0 < b₁.capacity - b₁.length := by
        rw [h'.capacity_eq, h'.length_eq]
        omega
      have happend := source.read_append (b₁.capacity - b₁.length)
      have hnil : source.bytes = [] := source.bytes_eq_nil_of_read hpos (congrArg Prod.fst hnone)
      have hrest : rest.bytes = [] := by
        rwa [hnone, hnil] at happend
      rw [← hread, hnil, BoundedBytes.read_nil hlt, hrest]
      exact ⟨rfl, h'⟩
  | case3 b source b₁ hroom c chunk rest hsome ih =>
    obtain ⟨hroom', -⟩ | ⟨b', v', hroom', h', hlt, hread⟩ := h.makeRoom
    · rw [hroom] at hroom'
      cases hroom'
    · obtain rfl : b₁ = b' := Option.some.inj (hroom.symm.trans hroom')
      have happend := source.read_append (b₁.capacity - b₁.length)
      have hlength := source.length_read_le (b₁.capacity - b₁.length)
      rw [hsome] at happend hlength
      have hle : v'.bytes.length + (c :: chunk).length ≤ v'.capacity := by
        rw [h'.capacity_eq, h'.length_eq] at hlength
        dsimp only at hlength
        omega
      have hoffer := (h'.offer (c :: chunk)).2
      rw [BoundedBytes.append, dif_pos hle] at hoffer
      have hending : rest.ending = source.ending :=
        (congrArg (fun taken => taken.2.ending) hsome).symm
      rw [← hread, ← happend, ← BoundedBytes.read_extend hle, ← hending]
      exact ih hoffer

end Buffer

end PropertyList
