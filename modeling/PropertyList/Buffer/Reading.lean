import PropertyList.Buffer.Basic

/-!
# Filling buffers from a source of bytes

A source yields its bytes in portions: a read gives as many as are asked for, or fewer if the
portion at hand has fewer. When there are no more, a read says so. `Buffer.read` asks for as much as
there is room for and enlarges the buffer whenever it is full.

## Main definitions

* `ByteSource`, `ByteSource.read`
* `Reading`, `Buffer.read`
-/

namespace PropertyList

/-- What a source says when it has no more bytes. -/
inductive SourceEnd where
  | endOfFile
  | wouldBlock
  /-- The next read fails. -/
  | failure
  deriving DecidableEq, Repr

/-- A source of bytes. -/
structure ByteSource where
  /-- The bytes that are still to come. No read goes beyond the end of a portion. -/
  portions : List Bytes
  ending : SourceEnd
  deriving DecidableEq, Repr

namespace ByteSource

/-- A source that gives as many bytes per read as are asked for. -/
def yields (bytes : Bytes) (ending : SourceEnd) : ByteSource :=
  ⟨[bytes], ending⟩

/-- A source of which every read fails. -/
def failing : ByteSource :=
  ⟨[], .failure⟩

/-- All bytes that are still to come. -/
def bytes (s : ByteSource) : Bytes :=
  s.portions.flatten

/-- At most `n` bytes of the first portion that has any, and the portions that remain. -/
def takePortion (n : Nat) : List Bytes → Bytes × List Bytes
  | [] => ([], [])
  | [] :: portions => takePortion n portions
  | (b :: portion) :: portions => ((b :: portion).take n, (b :: portion).drop n :: portions)

theorem takePortion_append (n : Nat) (portions : List Bytes) :
    (takePortion n portions).1 ++ (takePortion n portions).2.flatten = portions.flatten := by
  induction portions with
  | nil => rfl
  | cons portion portions ih =>
    cases portion with
    | nil => exact ih
    | cons b portion =>
      rw [takePortion, List.flatten_cons, List.flatten_cons, ← List.append_assoc,
        List.take_append_drop]

/-- Reads at most `n` bytes. -/
def read (s : ByteSource) (n : Nat) : Bytes × ByteSource :=
  ((takePortion n s.portions).1, ⟨(takePortion n s.portions).2, s.ending⟩)

/-- What a read gives is what the source has lost. -/
theorem read_append (s : ByteSource) (n : Nat) :
    (s.read n).1 ++ (s.read n).2.bytes = s.bytes :=
  takePortion_append n s.portions

theorem length_read_lt {s rest : ByteSource} {n : Nat} {c : UInt8} {chunk : Bytes}
    (h : s.read n = (c :: chunk, rest)) : rest.bytes.length < s.bytes.length := by
  have hlength := congrArg List.length (s.read_append n)
  rw [h, List.length_append, List.length_cons] at hlength
  dsimp only at hlength
  omega

end ByteSource

/-- How reading ends. -/
inductive ReadOutcome where
  | endOfFile
  | wouldBlock
  /-- A read failed, or the buffer is full and has its maximum. -/
  | failed
  deriving DecidableEq, Repr

/-- The number by which a way of ending is known. -/
def ReadOutcome.status : ReadOutcome → Int
  | endOfFile => 0
  | wouldBlock => 1
  | failed => -1

/-- The way of ending that a source's end leads to. -/
def SourceEnd.outcome : SourceEnd → ReadOutcome
  | endOfFile => .endOfFile
  | wouldBlock => .wouldBlock
  | failure => .failed

/-- What reading leaves behind: the buffer, what the source still has, and how reading ended. -/
structure Reading where
  buffer : Buffer
  rest : ByteSource
  outcome : ReadOutcome
  deriving DecidableEq, Repr

namespace Buffer

/-- A full buffer enlarged, or none if it has its maximum. -/
def makeRoom (b : Buffer) : Option Buffer :=
  if b.isFull then
    match b.grow with
    | (larger, true) => some larger
    | (_, false) => none
  else some b

/-- Reads from a source until it has no more bytes or the buffer is full and has its maximum. -/
def read (b : Buffer) (source : ByteSource) : Reading :=
  match b.makeRoom with
  | none => ⟨b, source, .failed⟩
  | some b =>
    match _h : source.read (b.capacity - b.length) with
    | ([], rest) => ⟨b, rest, source.ending.outcome⟩
    | (c :: chunk, rest) => (b.offer (c :: chunk)).1.read rest
  termination_by source.bytes.length
  decreasing_by exact ByteSource.length_read_lt ‹_›

end Buffer

end PropertyList
