import Mathlib.Data.List.DropRight
import PropertyList.Proofs.Buffer.Filling
import PropertyList.Proofs.Buffer.Writing

/-!
# The life of a buffer

A buffer is made, and then operations are performed on it, one after the other, with whatever
arguments and whatever they answer. Throughout it is a bounded byte string: within its capacities,
with as many cells as its capacity says, and with the bytes that the operations since it was last
cleared have put there. What an operation does to it depends on the byte string alone, not on what
earlier use has left in the cells behind it.

## Main definitions

* `BufferOperation`, `BufferAnswer`
* `Buffer.perform`, `Buffer.after`, `Buffer.history`, `BufferOperation.data`, `contents`

## Main results

* `Buffer.Shows.perform`, `Buffer.Shows.after`
* `Buffer.bounded_throughout`
* `Buffer.write_whole_or_not_at_all`
-/

namespace PropertyList

/-- What can be done to a buffer that has a store. -/
inductive BufferOperation where
  | append (bytes : Bytes)
  | appendByte (n : Int)
  | appendByteIf (condition : Bool) (n : Int)
  | grow
  | clear
  | read (source : ByteSource)
  | write (indent level : Int) (t : Tree)

/-- What an operation of a buffer answers. -/
inductive BufferAnswer where
  /-- Whether it has been done. -/
  | done (completed : Bool)
  | cleared
  | refused (e : BufferError)
  /-- How reading has ended, and which bytes the source still has. -/
  | read (outcome : ReadOutcome) (rest : Bytes)
  deriving DecidableEq

/-- Whether an answer says that nothing has been done. A line break that cannot be written is found
out only when what is in front of it is written. -/
def BufferAnswer.Fails : BufferAnswer → Prop
  | done completed => completed = false
  | refused e => e ≠ .oversized
  | _ => False

/-- The answer to writing a tree. -/
def WriteOutcome.answer : WriteOutcome → BufferAnswer
  | written => .done true
  | full => .done false
  | oversized => .refused .oversized

namespace Buffer

/-- The buffer and the answer after an operation that may be refused. A refusal leaves the buffer as
it is. -/
def answered (b : Buffer) : Except BufferError (Buffer × Bool) → Buffer × BufferAnswer
  | .ok (b', completed) => (b', .done completed)
  | .error e => (b, .refused e)

/-- Performs an operation. -/
def perform (b : Buffer) : BufferOperation → Buffer × BufferAnswer
  | .append bytes => b.answered (b.append bytes)
  | .appendByte n => b.answered (b.appendByte n)
  | .appendByteIf condition n => b.answered (b.appendByteIf condition n)
  | .grow => (b.grow.1, .done b.grow.2)
  | .clear => (b.clear, .cleared)
  | .read source =>
    ((b.read source).buffer, .read (b.read source).outcome (b.read source).rest.bytes)
  | .write indent level t => ((b.write indent level t).1, (b.write indent level t).2.answer)

/-- The buffer after operations. -/
def after (b : Buffer) (ops : List BufferOperation) : Buffer :=
  ops.foldl (fun b o => (b.perform o).1) b

/-- Operations with their answers. -/
def history (b : Buffer) : List BufferOperation → List (BufferOperation × BufferAnswer)
  | [] => []
  | o :: ops => (o, (b.perform o).2) :: (b.perform o).1.history ops

end Buffer

namespace BufferOperation

def isClear : BufferOperation → Bool
  | clear => true
  | _ => false

/-- The bytes that an operation with an answer has put down: what it has appended or written if that
was done, what a source has lost, and what was written of a tree in front of a line break that cannot
be written. -/
def data : BufferOperation → BufferAnswer → Bytes
  | append bytes, .done true => bytes
  | appendByte n, .done true => [UInt8.ofNat n.toNat]
  | appendByteIf true n, .done true => [UInt8.ofNat n.toNat]
  | read source, .read _ rest => source.bytes.take (source.bytes.length - rest.length)
  | write indent level t, .done true => (t.render indent level).encode
  | write indent level t, .refused .oversized => t.front indent level
  | _, _ => []

theorem data_appendByteIf (n : Int) (answer : BufferAnswer) :
    (appendByteIf true n).data answer = (appendByte n).data answer := by
  rcases answer with ⟨_ | _⟩ | _ | _ | _ <;> rfl

theorem data_of_fails (o : BufferOperation) {answer : BufferAnswer} (hfails : answer.Fails) :
    o.data answer = [] := by
  cases answer with
  | done completed =>
    obtain rfl : completed = false := hfails
    rcases o with _ | _ | ⟨_ | _⟩ | _ | _ | _ | _ <;> rfl
  | cleared => exact hfails.elim
  | refused e =>
    cases e with
    | oversized => exact absurd rfl hfails
    | _ => rcases o with _ | _ | ⟨_ | _⟩ | _ | _ | _ | _ <;> rfl
  | read outcome rest => exact hfails.elim

end BufferOperation

/-- What operations with their answers have put down since the last `clear`. -/
def contents (history : List (BufferOperation × BufferAnswer)) : Bytes :=
  (history.rtakeWhile fun e => !e.1.isClear).flatMap fun e => e.1.data e.2

theorem contents_concat (history : List (BufferOperation × BufferAnswer)) (o : BufferOperation)
    (answer : BufferAnswer) :
    contents (history ++ [(o, answer)]) =
      if o.isClear then [] else contents history ++ o.data answer := by
  rw [contents, List.rtakeWhile_concat]
  cases o.isClear with
  | true => rfl
  | false =>
    rw [if_pos Bool.not_false, if_neg Bool.false_ne_true, List.flatMap_append,
      List.flatMap_singleton]
    rfl

/-! ### Operations on byte strings -/

namespace BoundedBytes

/-- Appends the byte with the number `n` if there is one. -/
def appendByte (v : BoundedBytes) (n : Int) : BoundedBytes × BufferAnswer :=
  if 0 ≤ n ∧ n < 256 then
    ((v.append [UInt8.ofNat n.toNat]).1, .done (v.append [UInt8.ofNat n.toNat]).2)
  else (v, .refused .notAByte)

/-- What an operation does to the byte string that a buffer shows. -/
def perform (v : BoundedBytes) : BufferOperation → BoundedBytes × BufferAnswer
  | .append bytes => ((v.append bytes).1, .done (v.append bytes).2)
  | .appendByte n => v.appendByte n
  | .appendByteIf condition n => if condition then v.appendByte n else (v, .done true)
  | .grow => (v.grow.1, .done v.grow.2)
  | .clear => (v.clear, .cleared)
  | .read source =>
    ((v.read source.bytes source.ending).1, .read (v.read source.bytes source.ending).2.1
      (v.read source.bytes source.ending).2.2)
  | .write indent level t => ((v.write indent level t).1, (v.write indent level t).2.answer)

/-- The byte string after operations. -/
def after (v : BoundedBytes) (ops : List BufferOperation) : BoundedBytes :=
  ops.foldl (fun v o => (v.perform o).1) v

variable (v : BoundedBytes)

theorem bytes_append (more : Bytes) :
    (v.append more).1.bytes =
      v.bytes ++ (BufferOperation.append more).data (.done (v.append more).2) := by
  unfold append
  split_ifs
  · rfl
  · exact (List.append_nil _).symm

theorem bytes_appendByte (n : Int) :
    (v.appendByte n).1.bytes =
      v.bytes ++ (BufferOperation.appendByte n).data (v.appendByte n).2 := by
  unfold appendByte
  split_ifs
  · rw [bytes_append]
    cases (v.append [UInt8.ofNat n.toNat]).2 <;> rfl
  · exact (List.append_nil _).symm

theorem bytes_grow : v.grow.1.bytes = v.bytes := by
  unfold grow
  split_ifs <;> rfl

theorem grow_iff : v.grow.2 = true ↔ v.capacity < v.maxCapacity := by
  by_cases hlt : v.capacity < v.maxCapacity
  · rw [grow, if_pos hlt]
    exact iff_of_true rfl hlt
  · rw [grow, if_neg hlt]
    exact iff_of_false Bool.false_ne_true hlt

theorem capacity_of_grow (hgrow : v.grow.2 = true) :
    v.grow.1.capacity = min (2 * v.capacity) v.maxCapacity := by
  rw [grow, if_pos (v.grow_iff.1 hgrow)]
  rfl

theorem bytes_read (bytes : Bytes) (ending : SourceEnd) :
    (v.read bytes ending).1.bytes =
      v.bytes ++ bytes.take (bytes.length - (v.read bytes ending).2.2.length) := by
  show v.bytes ++ bytes.take (v.maxCapacity - v.bytes.length) =
    v.bytes ++ bytes.take (bytes.length - (bytes.drop (v.maxCapacity - v.bytes.length)).length)
  rw [List.length_drop, List.append_cancel_left_eq, List.take_eq_take_iff]
  omega

theorem bytes_write (indent level : Int) (t : Tree) :
    (v.write indent level t).1.bytes =
      v.bytes ++ (BufferOperation.write indent level t).data
        (v.write indent level t).2.answer := by
  unfold write
  split_ifs with hle ht
  · show v.bytes ++ t.front indent level = v.bytes ++ (t.render indent level).encode
    rw [Tree.front_eq ht]
  · rfl
  · exact (List.append_nil _).symm

/-- An operation puts its data behind the bytes, unless it clears them. -/
theorem bytes_perform (o : BufferOperation) :
    (v.perform o).1.bytes =
      if o.isClear then [] else v.bytes ++ o.data (v.perform o).2 := by
  cases o with
  | append bytes => exact v.bytes_append bytes
  | appendByte n => exact v.bytes_appendByte n
  | appendByteIf condition n =>
    cases condition with
    | true =>
      rw [BufferOperation.data_appendByteIf]
      exact v.bytes_appendByte n
    | false => exact (List.append_nil _).symm
  | grow => exact v.bytes_grow.trans (List.append_nil _).symm
  | clear => rfl
  | read source => exact v.bytes_read source.bytes source.ending
  | write indent level t => exact v.bytes_write indent level t

/-- One byte string has the maximum of another and no smaller capacity. -/
def NoSmaller (v' v : BoundedBytes) : Prop :=
  v.capacity ≤ v'.capacity ∧ v'.maxCapacity = v.maxCapacity

theorem noSmaller_append (more : Bytes) : (v.append more).1.NoSmaller v := by
  unfold append
  split_ifs <;> exact ⟨Nat.le_refl _, rfl⟩

theorem noSmaller_appendByte (n : Int) : (v.appendByte n).1.NoSmaller v := by
  unfold appendByte
  split_ifs
  · exact v.noSmaller_append _
  · exact ⟨Nat.le_refl _, rfl⟩

theorem noSmaller_grow : v.grow.1.NoSmaller v := by
  refine ⟨v.capacity_le_grow, ?_⟩
  unfold grow
  split_ifs <;> rfl

theorem noSmaller_write (indent level : Int) (t : Tree) : (v.write indent level t).1.NoSmaller v := by
  unfold write
  split_ifs <;> exact ⟨Nat.le_refl _, rfl⟩

/-- No operation changes the maximum, and none makes the capacity smaller. -/
theorem noSmaller_perform (o : BufferOperation) : (v.perform o).1.NoSmaller v := by
  cases o with
  | append bytes => exact v.noSmaller_append bytes
  | appendByte n => exact v.noSmaller_appendByte n
  | appendByteIf condition n =>
    cases condition with
    | true => exact v.noSmaller_appendByte n
    | false => exact ⟨Nat.le_refl _, rfl⟩
  | grow => exact v.noSmaller_grow
  | clear => exact ⟨Nat.le_refl _, rfl⟩
  | read source => exact ⟨le_reach v.capacity_le _, rfl⟩
  | write indent level t => exact v.noSmaller_write indent level t

theorem noSmaller_after (ops : List BufferOperation) : (v.after ops).NoSmaller v := by
  induction ops generalizing v with
  | nil => exact ⟨Nat.le_refl _, rfl⟩
  | cons o ops ih =>
    have hfirst := v.noSmaller_perform o
    have hrest := ih (v.perform o).1
    exact ⟨Nat.le_trans hfirst.1 hrest.1, hrest.2.trans hfirst.2⟩

/-- An operation that is not done leaves the bytes. -/
theorem bytes_of_fails (o : BufferOperation) (hfails : (v.perform o).2.Fails) :
    (v.perform o).1.bytes = v.bytes := by
  rw [bytes_perform, BufferOperation.data_of_fails o hfails, List.append_nil]
  cases o with
  | clear => exact hfails.elim
  | _ => rfl

end BoundedBytes

namespace Buffer

variable {b b' : Buffer} {v : BoundedBytes}

theorem Shows.answered_append (h : b.Shows v) (bytes : Bytes) :
    Refines (b.answered (b.append bytes)) ((v.append bytes).1, .done (v.append bytes).2) := by
  obtain ⟨hanswer, hshows⟩ := h.offer bytes
  rw [h.append_eq]
  exact ⟨congrArg BufferAnswer.done hanswer, hshows⟩

theorem Shows.answered_appendByte (h : b.Shows v) (n : Int) :
    Refines (b.answered (b.appendByte n)) (v.appendByte n) := by
  rw [appendByte, BoundedBytes.appendByte]
  split_ifs with hn
  · exact h.answered_append _
  · exact ⟨rfl, h⟩

/-- **An operation of a buffer is one of the byte string it shows.** -/
theorem Shows.perform (h : b.Shows v) (o : BufferOperation) :
    Refines (b.perform o) (v.perform o) := by
  cases o with
  | append bytes => exact h.answered_append bytes
  | appendByte n => exact h.answered_appendByte n
  | appendByteIf condition n =>
    cases condition with
    | true => exact h.answered_appendByte n
    | false => exact ⟨rfl, h⟩
  | grow => exact ⟨congrArg BufferAnswer.done h.grow.1, h.grow.2⟩
  | clear => exact ⟨rfl, h.clear⟩
  | read source =>
    obtain ⟨hread, hshows⟩ := h.read source
    exact ⟨congrArg (fun r : ReadOutcome × Bytes => BufferAnswer.read r.1 r.2) hread, hshows⟩
  | write indent level t =>
    obtain ⟨hwrite, hshows⟩ := h.write indent level t
    exact ⟨congrArg WriteOutcome.answer hwrite, hshows⟩

theorem Shows.after (h : b.Shows v) (ops : List BufferOperation) :
    (b.after ops).Shows (v.after ops) := by
  induction ops generalizing b v with
  | nil => exact h
  | cons o ops ih => exact ih (h.perform o).2

theorem history_concat (b : Buffer) (ops : List BufferOperation) (o : BufferOperation) :
    b.history (ops ++ [o]) = b.history ops ++ [(o, ((b.after ops).perform o).2)] := by
  induction ops generalizing b with
  | nil => rfl
  | cons o' ops ih =>
    rw [List.cons_append, history, history, ih]
    rfl

/-- A buffer that began empty shows what its history has put down. -/
theorem Shows.bytes_after (h : b.Shows v) (hnil : v.bytes = []) (ops : List BufferOperation) :
    (v.after ops).bytes = contents (b.history ops) := by
  induction ops using List.reverseRecOn with
  | nil => exact hnil
  | append_singleton ops o ih =>
    have hanswer := ((h.after ops).perform o).1
    rw [history_concat, contents_concat, ← ih, hanswer, ← BoundedBytes.bytes_perform,
      BoundedBytes.after, List.foldl_concat]
    rfl

/-- A buffer that has been made and used shows what its history has put down, and an unmanaged one
has the capacities it was made with. -/
theorem IsNew.after {new : Buffer} (hnew : new.IsNew) (ops : List BufferOperation) :
    ∃ v : BoundedBytes, (new.after ops).Shows v ∧ v.bytes = contents (new.history ops) ∧
      (new.unmanaged = true → v.capacity = new.capacity ∧ v.maxCapacity = new.maxCapacity) := by
  obtain ⟨v, hshows, hnil, hunmanaged⟩ := hnew.shows
  obtain ⟨hcapacity, hmax⟩ := v.noSmaller_after ops
  refine ⟨v.after ops, hshows.after ops, hshows.bytes_after hnil ops, fun hnew' => ?_⟩
  have hle := (v.after ops).capacity_le
  have hfull := hunmanaged hnew'
  rw [hshows.capacity_eq, hshows.maxCapacity_eq]
  omega

/-- **A buffer is a bounded byte string.** Whatever has been done to it since it was made, it is
within its capacities, has as many cells as its capacity says and contains what has been put down
since it was last cleared. Its capacities never get smaller, and an unmanaged buffer keeps them. An
operation that is not done leaves the bytes, and enlarging doubles the capacity up to the maximum.
Every answer, and the bytes and the capacities afterwards, are determined by the bytes and the
capacities before, so what earlier use has left behind them never shows. -/
theorem bounded_throughout {new : Buffer} (hnew : new.IsNew) (ops : List BufferOperation) :
    let b := new.after ops
    (b.length ≤ b.capacity ∧ b.capacity ≤ b.maxCapacity ∧
      ∃ cells, b.cells = some cells ∧ cells.length = b.capacity) ∧
    ((∀ o, b.capacity ≤ (b.perform o).1.capacity ∧ b.maxCapacity ≤ (b.perform o).1.maxCapacity) ∧
      (new.unmanaged = true → b.capacity = new.capacity ∧ b.maxCapacity = new.maxCapacity)) ∧
    (b.value = .ok (contents (new.history ops)) ∧
      ∀ source, (b.read source).rest.bytes <:+ source.bytes) ∧
    (∀ o, (b.perform o).2.Fails → (b.perform o).1.value = b.value) ∧
    ((b.grow.2 = true ↔ b.capacity < b.maxCapacity) ∧ b.grow.1.value = b.value ∧
      (b.grow.2 = true → b.grow.1.capacity = min (2 * b.capacity) b.maxCapacity)) ∧
    ∀ new' : Buffer, new'.IsNew → ∀ ops', let b' := new'.after ops'
      b'.value = b.value → b'.capacity = b.capacity → b'.maxCapacity = b.maxCapacity →
      ∀ o, (b'.perform o).2 = (b.perform o).2 ∧ (b'.perform o).1.value = (b.perform o).1.value ∧
        (b'.perform o).1.capacity = (b.perform o).1.capacity ∧
        (b'.perform o).1.maxCapacity = (b.perform o).1.maxCapacity := by
  intro b
  obtain ⟨v, h, hbytes, hunmanaged⟩ := hnew.after ops
  have hlength := v.length_le
  have hle := v.capacity_le
  refine ⟨⟨?_, ?_, h.length_cells⟩, ⟨fun o => ?_, fun hnew' => ?_⟩, ⟨?_, fun source => ?_⟩,
    fun o hfails => ?_, ?_, ?_⟩
  · rwa [h.length_eq, h.capacity_eq]
  · rwa [h.capacity_eq, h.maxCapacity_eq]
  · obtain ⟨-, ho⟩ := h.perform o
    obtain ⟨hgrown, hkept⟩ := v.noSmaller_perform o
    rw [h.capacity_eq, h.maxCapacity_eq, ho.capacity_eq, ho.maxCapacity_eq]
    exact ⟨hgrown, hkept.ge⟩
  · rw [h.capacity_eq, h.maxCapacity_eq]
    exact hunmanaged hnew'
  · rw [h.value_eq, hbytes]
  · have hrest := congrArg Prod.snd (h.read source).1
    rw [show (b.read source).rest.bytes = _ from hrest]
    exact List.drop_suffix _ _
  · obtain ⟨hanswer, ho⟩ := h.perform o
    rw [ho.value_eq, h.value_eq, v.bytes_of_fails o (hanswer ▸ hfails)]
  · obtain ⟨hanswer, hgrow⟩ := h.grow
    rw [hanswer, hgrow.value_eq, h.value_eq, hgrow.capacity_eq, h.capacity_eq, h.maxCapacity_eq]
    exact ⟨v.grow_iff, congrArg Except.ok v.bytes_grow, v.capacity_of_grow⟩
  · intro new' hnew' ops' b' hvalue hcapacity' hmax' o
    obtain ⟨v', h', -⟩ := hnew'.after ops'
    obtain rfl := h'.unique h hvalue hcapacity' hmax'
    obtain ⟨hanswer, ho⟩ := h.perform o
    obtain ⟨hanswer', ho'⟩ := h'.perform o
    refine ⟨hanswer'.trans hanswer.symm, ?_, ?_, ?_⟩
    · rw [ho'.value_eq, ho.value_eq]
    · rw [ho'.capacity_eq, ho.capacity_eq]
    · rw [ho'.maxCapacity_eq, ho.maxCapacity_eq]

/-- A buffer that is filled, cleared, filled again and enlarged, over the cells of its first use. -/
theorem bounded_throughout_reused :
    ∃ new : Buffer, create 2 3 = .ok new ∧ new.IsNew ∧
      (new.after [.append [1, 2], .append [3], .clear, .append [4], .grow, .appendByte 5]).value =
        .ok [4, 5] := by
  refine ⟨_, rfl, Or.inl ⟨2, 3, rfl⟩, ?_⟩
  exact (bounded_throughout (Or.inl ⟨2, 3, rfl⟩) _).2.2.1.1

/-- A line break that cannot be written raises an error and leaves the bytes in front of it. -/
theorem value_write_oversized :
    ∃ new : Buffer, create 64 64 = .ok new ∧
      (new.perform (.write (-10 ^ 30) 0 (.array [.string [.char 'a']]))).2 = .refused .oversized ∧
      new.value = .ok [] ∧
      (new.perform (.write (-10 ^ 30) 0 (.array [.string [.char 'a']]))).1.value = .ok [40] :=
  ⟨_, rfl, rfl, rfl, rfl⟩

/-! ### Writing as a whole -/

/-- Writing ends in one of three ways, by whether the line breaks can be written and by the room for
what is in front of the first that cannot. -/
theorem Shows.write_cases (h : b.Shows v) (t : Tree) (indent level : Int) :
    ((b.write indent level t).2 = .written ∧ t.Writable indent level ∧
        v.bytes.length + (t.render indent level).encode.length ≤ v.capacity ∧
        (b.write indent level t).1.value = .ok (v.bytes ++ (t.render indent level).encode)) ∨
      ((b.write indent level t).2 = .oversized ∧ ¬ t.Writable indent level ∧
        v.bytes.length + (t.front indent level).length ≤ v.capacity) ∨
      ((b.write indent level t).2 = .full ∧
        ¬ v.bytes.length + (t.front indent level).length ≤ v.capacity ∧
        (b.write indent level t).1.Shows v) := by
  obtain ⟨houtcome, hshows⟩ := h.write indent level t
  unfold BoundedBytes.write at houtcome hshows
  split_ifs at houtcome hshows with hle ht
  · rw [← Tree.front_eq ht]
    exact Or.inl ⟨houtcome, ht, hle, hshows.value_eq⟩
  · exact Or.inr (Or.inl ⟨houtcome, ht, hle⟩)
  · exact Or.inr (Or.inr ⟨houtcome, hle, hshows⟩)

/-- The bytes of a tree, for capacities that a buffer may have. -/
theorem dump_eq_ite (t : Tree) (indent level : Int) {initial max : Int} (hpos : 0 < initial)
    (hle : initial ≤ max) :
    t.dump indent level initial max =
      if unbounded < initial then .error (.buffer .oversized)
      else if t.Writable indent level then
        if max < (t.render indent level).encode.length then .error (.full max)
        else .ok (t.render indent level).encode
      else if max < (t.front indent level).length then .error (.full max)
      else .error (.buffer .oversized) := by
  by_cases hbound : unbounded < initial
  · rw [if_pos hbound, Tree.dump, create, if_neg (by omega), if_pos hbound]
    rfl
  · rw [Tree.dump_eq ⟨hpos, hle, Int.not_lt.1 hbound⟩, if_neg hbound]
    by_cases ht : t.Writable indent level
    · rw [Tree.front_eq ht, if_pos ht, if_pos ht]
    · rw [if_neg ht, if_neg ht]

/-- **A tree is written as a whole or not at all.** If all line breaks of a tree can be written, it
is written into a buffer exactly if its rendering fits behind what the buffer contains, and otherwise
the buffer is as it was before. So the bytes of the tree are its rendering, unless that is longer than
the maximum, and the capacity there is to begin with does not matter. A line break that cannot be
written keeps the tree from being written at all, and is found out if what is in front of it fits. -/
theorem write_whole_or_not_at_all (t : Tree) (indent level : Int) :
    (∀ new : Buffer, new.IsNew → ∀ ops, let b := new.after ops
      ∀ bytes, b.value = .ok bytes → let r := b.write indent level t
        (t.Writable indent level →
          (r.2 = .written ↔
            bytes.length + (t.render indent level).encode.length ≤ b.capacity) ∧
          (r.2 = .written ∨ r.2 = .full)) ∧
        (¬ t.Writable indent level →
          (r.2 = .oversized ↔ bytes.length + (t.front indent level).length ≤ b.capacity) ∧
          (r.2 = .oversized ∨ r.2 = .full)) ∧
        (r.2 = .written → r.1.value = .ok (bytes ++ (t.render indent level).encode)) ∧
        (r.2 = .full → r.1.value = .ok bytes ∧ r.1.length = b.length ∧
          r.1.capacity = b.capacity ∧ r.1.maxCapacity = b.maxCapacity)) ∧
    ∀ initial max : Int, 0 < initial → initial ≤ max →
      t.dump indent level initial max =
        if unbounded < initial then .error (.buffer .oversized)
        else if t.Writable indent level then
          if max < (t.render indent level).encode.length then .error (.full max)
          else .ok (t.render indent level).encode
        else if max < (t.front indent level).length then .error (.full max)
        else .error (.buffer .oversized) := by
  refine ⟨?_, fun _ _ => dump_eq_ite t indent level⟩
  intro new hnew ops b bytes hvalue r
  obtain ⟨v, h, -⟩ := hnew.after ops
  obtain rfl : v.bytes = bytes := Except.ok.inj (h.value_eq.symm.trans hvalue)
  rw [h.capacity_eq]
  rcases h.write_cases t indent level with ⟨hr, ht, hle, hwritten⟩ | ⟨hr, ht, hle⟩ |
    ⟨hr, hle, hshows⟩
  · have hroom : r.2 ≠ .full := by rw [hr]; decide
    exact ⟨fun _ => ⟨iff_of_true hr hle, Or.inl hr⟩, fun hbreak => absurd ht hbreak,
      fun _ => hwritten, fun hfull => absurd hfull hroom⟩
  · have hroom : r.2 ≠ .full := by rw [hr]; decide
    have hpart : r.2 ≠ .written := by rw [hr]; decide
    exact ⟨fun hall => absurd hall ht, fun _ => ⟨iff_of_true hr hle, Or.inl hr⟩,
      fun hwritten => absurd hwritten hpart, fun hfull => absurd hfull hroom⟩
  · have hpart : r.2 ≠ .written := by rw [hr]; decide
    have hbreak : r.2 ≠ .oversized := by rw [hr]; decide
    refine ⟨fun ht => ⟨iff_of_false hpart ?_, Or.inr hr⟩,
      fun _ => ⟨iff_of_false hbreak hle, Or.inr hr⟩, fun hwritten => absurd hwritten hpart,
      fun _ => ⟨hshows.value_eq, ?_, hshows.capacity_eq, ?_⟩⟩
    · rwa [← Tree.front_eq ht]
    · exact hshows.length_eq.trans h.length_eq.symm
    · exact hshows.maxCapacity_eq.trans h.maxCapacity_eq.symm

/-- An array of one item in a buffer that is enlarged twice, and in one that is too small. -/
theorem write_whole_or_not_at_all_one_item :
    (∃ new : Buffer, create 2 2 = .ok new ∧ new.IsNew ∧
      (new.write 0 0 (.array [.string [.char 'a']])).2 ≠ .written) ∧
    (Tree.array [.string [.char 'a']]).dump 0 0 1 3 = .ok [40, 97, 41] := by
  have h := write_whole_or_not_at_all (.array [.string [.char 'a']]) 0 0
  refine ⟨⟨_, rfl, Or.inl ⟨2, 2, rfl⟩, fun hwritten => ?_⟩, h.2 1 3 (by decide) (by decide)⟩
  have hle := (((h.1 _ (Or.inl ⟨2, 2, rfl⟩) [] [] rfl).1 (by decide)).1).1 hwritten
  exact absurd hle (by decide)

/-- A tree of five bytes, with a line break that cannot be written: it is neither written into a
buffer with room for it nor found not to fit, and has no bytes. On one line its rendering has three
bytes and no line break. Still it has no bytes there if the capacity to begin with is no 64-bit
number, as no buffer has that capacity. -/
theorem write_oversized_break :
    (∃ new : Buffer, create 64 64 = .ok new ∧
      ((Tree.array [.string [.char 'a']]).render (-10 ^ 30) 0).encode = [40, 10, 97, 10, 41] ∧
      (new.write (-10 ^ 30) 0 (.array [.string [.char 'a']])).2 = .oversized ∧
      (Tree.array [.string [.char 'a']]).dump (-10 ^ 30) 0 64 64 = .error (.buffer .oversized)) ∧
    ((Tree.array [.string [.char 'a']]).render 0 0).encode = [40, 97, 41] ∧
      (Tree.array [.string [.char 'a']]).dump 0 0 (2 ^ 63) (2 ^ 63) = .error (.buffer .oversized) := by
  refine ⟨⟨_, rfl, by decide, rfl, Tree.dump_eq ⟨by decide, by decide, by decide⟩⟩, by decide, ?_⟩
  rw [dump_eq_ite _ _ _ (by decide) (Int.le_refl _), if_pos (by decide)]

end Buffer

end PropertyList
