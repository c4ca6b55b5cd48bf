import PropertyList.Proofs.Buffer.Operations

/-!
# Reading to the end

Reading into a buffer takes all bytes that a source has, unless they fill the buffer up to its
maximum. It then tells how the source ends. If they do, it takes what there is room for and fails,
even if that are all bytes there are. What is taken comes behind the bytes that the buffer contains,
in the order of the source, and what is not taken stays with the source. The capacity from which
the buffer starts has no part in this, and neither have the portions in which the source hands its
bytes over.

## Main results

* `BoundedBytes.read_of_lt`, `BoundedBytes.read_of_le`
* `Buffer.read_takes_all_or_fills`
-/

namespace PropertyList

namespace ByteSource

/-- A source in one portion has the bytes of that portion. -/
@[simp]
theorem bytes_yields (bytes : Bytes) (ending : SourceEnd) : (yields bytes ending).bytes = bytes :=
  List.append_nil bytes

@[simp]
theorem bytes_failing : failing.bytes = [] := rfl

end ByteSource

namespace BoundedBytes

variable {v : BoundedBytes} {bytes : Bytes}

/-- Bytes that leave room below the limit are all taken. -/
theorem read_of_lt (hlt : v.bytes.length + bytes.length < v.maxCapacity) (ending : SourceEnd) :
    (v.read bytes ending).1.bytes = v.bytes ++ bytes ∧
      (v.read bytes ending).2 = (ending.outcome, []) := by
  have htake : bytes.take (v.maxCapacity - v.bytes.length) = bytes :=
    List.take_of_length_le (by omega)
  have hdrop : bytes.drop (v.maxCapacity - v.bytes.length) = [] :=
    List.drop_eq_nil_of_le (by omega)
  have hroom : ¬ v.maxCapacity ≤ v.bytes.length + bytes.length := Nat.not_le.2 hlt
  exact ⟨congrArg (v.bytes ++ ·) htake, Prod.ext (if_neg hroom) hdrop⟩

/-- Of bytes that reach the limit those up to it are taken, and then reading fails. -/
theorem read_of_le (hle : v.maxCapacity ≤ v.bytes.length + bytes.length) (ending : SourceEnd) :
    (v.read bytes ending).1.bytes = v.bytes ++ bytes.take (v.maxCapacity - v.bytes.length) ∧
      (v.read bytes ending).2 = (.failed, bytes.drop (v.maxCapacity - v.bytes.length)) :=
  ⟨rfl, Prod.ext (if_pos hle) rfl⟩

/-- From a source that has no bytes and fails, nothing is taken. -/
theorem read_failure (v : BoundedBytes) :
    (v.read [] .failure).1.bytes = v.bytes ∧ (v.read [] .failure).2.1 = .failed := by
  refine ⟨?_, ite_self _⟩
  show v.bytes ++ [].take _ = v.bytes
  rw [List.take_nil, List.append_nil]

end BoundedBytes

namespace Buffer

/-- **Reading takes everything or fills the buffer.** Let a buffer that contains the bytes `p` have
come about in any way. If the bytes of a source leave room below the maximum, reading takes them all
and ends as the source does. Otherwise it takes those that there is room for and fails, and the
others stay in the source. A source that fails at once leaves the bytes as they are. -/
theorem read_takes_all_or_fills {new : Buffer} (hnew : new.IsNew) (ops : List BufferOperation) :
    let b := new.after ops
    ∃ p, b.value = .ok p ∧
      (∀ source : ByteSource, let r := b.read source
        (p.length + source.bytes.length < b.maxCapacity →
          r.buffer.value = .ok (p ++ source.bytes) ∧ r.rest.bytes = [] ∧
          (source.ending = .endOfFile → r.outcome.status = 0) ∧
          (source.ending = .wouldBlock → r.outcome.status = 1)) ∧
        (b.maxCapacity ≤ p.length + source.bytes.length →
          r.buffer.value = .ok (p ++ source.bytes.take (b.maxCapacity - p.length)) ∧
          r.rest.bytes = source.bytes.drop (b.maxCapacity - p.length) ∧
          r.outcome.status = -1)) ∧
      (b.read .failing).buffer.value = .ok p ∧ (b.read .failing).outcome.status = -1 := by
  intro b
  obtain ⟨v, h, -⟩ := hnew.after ops
  have hread (source : ByteSource) := h.read source
  refine ⟨v.bytes, h.value_eq, fun source => ⟨fun hlt => ?_, fun hle => ?_⟩, ?_⟩
  · rw [h.maxCapacity_eq] at hlt
    obtain ⟨hanswer, hshows⟩ := hread source
    obtain ⟨hbytes, hrest⟩ := BoundedBytes.read_of_lt hlt source.ending
    obtain ⟨houtcome, hnone⟩ := Prod.mk.inj (hanswer.trans hrest)
    have hvalue := hshows.value_eq.trans (congrArg Except.ok hbytes)
    refine ⟨hvalue, hnone, fun hend => ?_, fun hend => ?_⟩
    · rw [houtcome, hend]
      rfl
    · rw [houtcome, hend]
      rfl
  · rw [h.maxCapacity_eq] at hle ⊢
    obtain ⟨hanswer, hshows⟩ := hread source
    obtain ⟨hbytes, hrest⟩ := BoundedBytes.read_of_le hle source.ending
    obtain ⟨houtcome, hdrop⟩ := Prod.mk.inj (hanswer.trans hrest)
    exact ⟨hshows.value_eq.trans (congrArg Except.ok hbytes), hdrop,
      congrArg ReadOutcome.status houtcome⟩
  · obtain ⟨hanswer, hshows⟩ := hread .failing
    rw [ByteSource.bytes_failing] at hanswer hshows
    obtain ⟨hbytes, hfailed⟩ := v.read_failure
    exact ⟨hshows.value_eq.trans (congrArg Except.ok hbytes),
      congrArg ReadOutcome.status ((congrArg Prod.fst hanswer).trans hfailed)⟩

/-- Two bytes behind one in a buffer of at most four leave room, and three fill it. -/
theorem read_takes_all_or_fills_one_byte :
    ∃ new : Buffer, create 1 4 = .ok new ∧ new.IsNew ∧
      (((new.after [.append [1]]).read (.yields [2, 3] .wouldBlock)).buffer.value = .ok [1, 2, 3] ∧
        ((new.after [.append [1]]).read (.yields [2, 3] .wouldBlock)).outcome.status = 1) ∧
      ((new.after [.append [1]]).read (.yields [2, 3, 4] .endOfFile)).buffer.value =
          .ok [1, 2, 3, 4] ∧
        ((new.after [.append [1]]).read (.yields [2, 3, 4] .endOfFile)).outcome.status = -1 := by
  refine ⟨_, rfl, Or.inl ⟨1, 4, rfl⟩, ?_⟩
  obtain ⟨p, hp, hsource, -⟩ := read_takes_all_or_fills (Or.inl ⟨1, 4, rfl⟩) [.append [1]]
  obtain rfl : [1] = p := Except.ok.inj hp
  obtain ⟨hvalue, -, -, hblock⟩ := (hsource (.yields [2, 3] .wouldBlock)).1
    (by rw [ByteSource.bytes_yields]; decide)
  obtain ⟨hvalue', -, hfailed⟩ := (hsource (.yields [2, 3, 4] .endOfFile)).2
    (by rw [ByteSource.bytes_yields]; decide)
  exact ⟨⟨hvalue, hblock rfl⟩, hvalue', hfailed⟩

end Buffer

end PropertyList
