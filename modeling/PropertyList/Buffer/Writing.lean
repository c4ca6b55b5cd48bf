import PropertyList.Buffer.Basic
import PropertyList.Tree.Rendering

/-!
# Writing trees into buffers

A tree is written into a buffer piece by piece. When a piece does not fit, the buffer goes back to
the length it had before, so a tree is written as a whole or not at all. `Buffer.writeGrowing`
enlarges the buffer and starts again until the tree is written or the buffer has its maximum.

A line break that cannot be written breaks the writing off, and what is in front of it stays.

The memory and the call stack of the machine are taken as unlimited: an enlarged buffer gets all the
cells it asks for, a line break may have as many blanks as a 64-bit number says, and a tree may have
any depth.

## Main definitions

* `Buffer.write`, `Buffer.writeGrowing`
* `WriteOutcome`
* `Tree.dump`, the bytes of a tree
-/

namespace PropertyList

/-- How writing a tree ends. -/
inductive WriteOutcome where
  | written
  /-- A piece does not fit. -/
  | full
  /-- A line break has a number of blanks that is no 64-bit number. -/
  | oversized
  deriving DecidableEq, Repr

namespace Buffer

/-- Appends a piece. Blanks that do not fit are not written down in vain. -/
def offerPiece (b : Buffer) (p : Piece) : Buffer × WriteOutcome :=
  if p.isOversized then (b, .oversized)
  else if b.capacity < b.length + p.blanks then (b, .full)
  else
    match b.offer p.bytes with
    | (b, true) => (b, .written)
    | (b, false) => (b, .full)

/-- Appends pieces one after the other, up to the first that is not written. -/
def offerAll (b : Buffer) : List Piece → Buffer × WriteOutcome
  | [] => (b, .written)
  | piece :: pieces =>
    match b.offerPiece piece with
    | (b, .written) => b.offerAll pieces
    | stopped => stopped

/-- Writes a tree that stands at `level`. A tree that does not fit leaves the length as it was. -/
def write (b : Buffer) (indent level : Int) (t : Tree) : Buffer × WriteOutcome :=
  match b.offerAll (t.pieces indent level) with
  | (b', .full) => ({ b' with length := b.length }, .full)
  | done => done

/-- How far the capacity is from the maximum. -/
def slack (b : Buffer) : Nat :=
  (b.maxCapacity - b.capacity) + (b.capacity - b.maxCapacity)

theorem slack_grow_lt {b : Buffer} (h : b.grow.2 = true) : b.grow.1.slack < b.slack := by
  unfold grow at h ⊢
  dsimp only at h ⊢
  by_cases hn : nextCapacity b.capacity b.maxCapacity = b.capacity
  · simp [hn] at h
  · rw [if_neg hn]
    unfold nextCapacity at hn ⊢
    unfold slack
    dsimp only
    split <;> split at hn <;> omega

theorem capacity_offer (b : Buffer) (bytes : Bytes) : (b.offer bytes).1.capacity = b.capacity := by
  unfold offer
  split <;> rfl

theorem maxCapacity_offer (b : Buffer) (bytes : Bytes) :
    (b.offer bytes).1.maxCapacity = b.maxCapacity := by
  unfold offer
  split <;> rfl

theorem slack_offer (b : Buffer) (bytes : Bytes) : (b.offer bytes).1.slack = b.slack := by
  simp [slack, capacity_offer, maxCapacity_offer]

theorem slack_offerPiece (b : Buffer) (p : Piece) : (b.offerPiece p).1.slack = b.slack := by
  have h := b.slack_offer p.bytes
  unfold offerPiece
  split
  · rfl
  · split
    · rfl
    · split <;> simp_all

theorem slack_offerAll (b : Buffer) (pieces : List Piece) :
    (b.offerAll pieces).1.slack = b.slack := by
  induction pieces generalizing b with
  | nil => rfl
  | cons piece pieces ih =>
    have h := b.slack_offerPiece piece
    unfold offerAll
    split <;> simp_all

theorem slack_write (b : Buffer) (indent level : Int) (t : Tree) :
    (b.write indent level t).1.slack = b.slack := by
  have h := b.slack_offerAll (t.pieces indent level)
  unfold write
  split <;> simp_all [slack]

/-- Writes a tree, enlarging the buffer as often as it takes. The tree does not fit if it does not
fit into the maximum. -/
def writeGrowing (b : Buffer) (indent level : Int) (t : Tree) : Buffer × WriteOutcome :=
  let written := b.write indent level t
  if written.2 = .full then
    let grown := written.1.grow
    if _h : grown.2 = true then grown.1.writeGrowing indent level t else written
  else written
  termination_by b.slack
  decreasing_by
    rw [← b.slack_write indent level t]
    exact slack_grow_lt ‹_›

end Buffer

/-- Why a tree has no bytes. -/
inductive DumpError where
  | buffer (e : BufferError)
  /-- The rendering is longer than the limit. -/
  | full (limit : Int)
  deriving DecidableEq, Repr

/-- The bytes of a tree that stands at `level`, collected in a buffer with the given capacities. -/
def Tree.dump (t : Tree) (indent level initial max : Int) : Except DumpError Bytes := do
  let b ← (Buffer.create initial max).mapError .buffer
  match b.writeGrowing indent level t with
  | (b, .written) => b.value.mapError .buffer
  | (_, .full) => throw (.full max)
  | (_, .oversized) => throw (.buffer .oversized)

/-- The message of a dump that failed. -/
def DumpError.message : DumpError → Text
  | buffer e => e.message
  | full limit => "output exceeds buffer limit of " ++ .ofInt limit ++ " bytes"

end PropertyList
