import PropertyList.Text.Basic

/-!
# Bounded buffers

A buffer is a byte string under construction with room for a fixed number of bytes, its capacity.
Appending never enlarges it: what does not fit is refused as a whole and the buffer stays as it
is. It is enlarged on request, by doubling, up to a maximum.

The bytes live in a store that has as many cells as the capacity. Cells that have never been used
hold zero and are not kept. An *unmanaged* buffer wraps a store that belongs to someone else and has
its capacity for good. A *finished* buffer has given up its store, and asking for its bytes is an
error.

## Main definitions

* `Buffer`, `Buffer.create`, `Buffer.wrap`
* `Buffer.value`, `Buffer.append`, `Buffer.grow`, `Buffer.clear`, `Buffer.finish`
* `Buffer.cells`, the store as a whole
-/

namespace PropertyList

/-- A bounded byte string. -/
structure Buffer where
  /-- The cells that hold the bytes, and behind them what earlier use has left there. The cells
  from there to the capacity hold zero. -/
  store : Option (Array UInt8)
  /-- How many cells hold the bytes. -/
  length : Nat
  capacity : Nat
  maxCapacity : Nat
  unmanaged : Bool
  deriving DecidableEq, Repr

/-- Why a buffer refuses an operation altogether. -/
inductive BufferError where
  /-- The capacities asked for are not positive or not in order. -/
  | invalidCapacities (initial max : Int)
  /-- The buffer has given up its store. -/
  | finished
  /-- A number that should be a byte is none. -/
  | notAByte
  /-- Bytes are asked for by a number that is no 64-bit number. -/
  | oversized
  deriving DecidableEq, Repr

/-- The wording of a refusal. -/
def BufferError.message : BufferError → Text
  | invalidCapacities initial max =>
    "invalid capacities: initial=" ++ .ofInt initial ++ " max=" ++ .ofInt max
  | finished => "DynBuf used after fini()"
  | notAByte => "bytes must be in range(0, 256)"
  | oversized => "cannot fit 'int' into an index-sized integer"

/-- Writes bytes into consecutive cells, from the cell `i` on, with new cells at the end. -/
def overwrite (store : Array UInt8) (i : Nat) : Bytes → Array UInt8
  | [] => store
  | b :: bytes =>
    overwrite (if i < store.size then store.setIfInBounds i b else store.push b) (i + 1) bytes

namespace Buffer

/-- The largest capacity a buffer may be given without a limit of its own. -/
def unbounded : Nat := 0x7FFFFFFFFFFFFFFF

/-- An empty buffer. -/
def create (initial max : Int) : Except BufferError Buffer :=
  if initial ≤ 0 ∨ max ≤ 0 ∨ initial > max then .error (.invalidCapacities initial max)
  else if unbounded < initial then .error .oversized
  else .ok ⟨some #[], 0, initial.toNat, max.toNat, false⟩

/-- An empty buffer over the store of someone else. -/
def wrap (store : Bytes) : Buffer :=
  ⟨some store.toArray, 0, store.length, store.length, true⟩

/-- The bytes appended so far. -/
def value (b : Buffer) : Except BufferError Bytes :=
  match b.store with
  | some store => .ok (store.toList.take b.length)
  | none => .error .finished

/-- The cells of the store. -/
def cells (b : Buffer) : Option Bytes :=
  b.store.map fun store => store.toList ++ List.replicate (b.capacity - store.size) 0

/-- Whether there is no room left. -/
def isFull (b : Buffer) : Bool :=
  b.capacity ≤ b.length

/-- Forgets the bytes. -/
def clear (b : Buffer) : Buffer :=
  { b with length := 0 }

/-- Whether there is room for `bytes`. -/
def fits (b : Buffer) (bytes : Bytes) : Bool :=
  b.length + bytes.length ≤ b.capacity

/-- Appends `bytes` if they fit and tells whether they did. -/
def offer (b : Buffer) (bytes : Bytes) : Buffer × Bool :=
  if b.fits bytes then
    ({ b with
        store := b.store.map fun store => overwrite store b.length bytes
        length := b.length + bytes.length }, true)
  else (b, false)

/-- Appends `bytes` if they fit and tells whether they did. Bytes that fit need a store, even if
there are none. -/
def append (b : Buffer) (bytes : Bytes) : Except BufferError (Buffer × Bool) :=
  if b.fits bytes && b.store.isNone then .error .finished else .ok (b.offer bytes)

/-- Appends the byte with the number `n` if it fits and tells whether it did. -/
def appendByte (b : Buffer) (n : Int) : Except BufferError (Buffer × Bool) :=
  if 0 ≤ n ∧ n < 256 then b.append [UInt8.ofNat n.toNat] else .error .notAByte

/-- Appends a byte under a condition. Nothing to do counts as done. -/
def appendByteIf (b : Buffer) (condition : Bool) (n : Int) : Except BufferError (Buffer × Bool) :=
  if condition then b.appendByte n else .ok (b, true)

/-- The capacity after `capacity`: the double, or the maximum if the double exceeds it. -/
def nextCapacity (capacity max : Nat) : Nat :=
  if capacity ≤ max / 2 then 2 * capacity else max

/-- Enlarges the store and tells whether it did. -/
def grow (b : Buffer) : Buffer × Bool :=
  let next := nextCapacity b.capacity b.maxCapacity
  if next = b.capacity then (b, false) else ({ b with capacity := next }, true)

/-- Gives up the store. -/
def finish (b : Buffer) : Buffer :=
  ⟨none, 0, 0, b.maxCapacity, false⟩

/-- A buffer as listings show it. -/
def display (b : Buffer) : Text :=
  "DynBuf(length=" ++ .ofNat b.length ++ ", capacity=" ++ .ofNat b.capacity ++ ")"

end Buffer

end PropertyList
