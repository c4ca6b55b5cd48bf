import PropertyList.Heap.Release
import PropertyList.Token.Scan

/-!
# The document automaton

Documents are read by an automaton that takes one token at a time. It has a stack of objects, on
which it holds one reference each: the containers that are open, each dictionary of which may have
the key of the entry being read above it, and on top the value just completed. A completed value
is attached at once to the container that is open, which then holds the only reference to it.

The grammar is

```
document = value [";"]
value    = string | dict | array
dict     = "{" [entry {";" entry} [";"]] "}"
entry    = string "=" value
array    = "(" [value {"," value} [","]] ")"
```

## Main definitions

* `State`, `Frame`, `Machine`, the configurations of the automaton
* `ParseError`
* `Machine.step`, the reaction to a token
-/

namespace PropertyList

/-- What the automaton is waiting for. -/
inductive State where
  /-- A value. -/
  | value
  /-- A key or the end of the dictionary. -/
  | keyOrClose
  /-- The equals sign after a key. -/
  | equals
  /-- A semicolon or the end of the dictionary. -/
  | entryEnd
  /-- An item or the end of the array. -/
  | itemOrClose
  /-- A comma or the end of the array. -/
  | itemEnd
  /-- The semicolon after the root value or the end of the input. -/
  | documentEnd
  /-- The end of the input. -/
  | ending
  /-- Nothing: the document is complete. -/
  | done
  deriving DecidableEq, Repr

/-- What the automaton is waiting for, in words. -/
def State.expectation : State → Text
  | value | itemOrClose => "a value"
  | keyOrClose => "a key or '\x7d'"
  | equals => "'='"
  | entryEnd => "';' or '\x7d'"
  | itemEnd => "',' or ')'"
  | documentEnd | ending | done => "end of input"

/-- Why a document is refused. -/
inductive ParseError where
  | lexical (e : LexError)
  /-- A token that cannot follow what was read before. -/
  | unexpected (state : State) (found : PlacedToken)
  /-- A key that its dictionary has already. The position is that of the token that completes the
  entry. -/
  | duplicateKey (key : Text) (position : Position)
  /-- The automaton has met a destroyed object. -/
  | misuse (m : Misuse)
  /-- The stack is not as it should be. -/
  | unbalanced (objects : Nat)
  deriving DecidableEq, Repr

namespace ParseError

/-- The message of a parse error. -/
def message : ParseError → Text
  | lexical e => e.message
  | unexpected state found =>
    found.position.message ("expected " ++ state.expectation ++ ", got " ++ found.token.display)
  | duplicateKey key position => position.message ("duplicate dict key " ++ key.display)
  | misuse m => m.message
  | unbalanced objects =>
    "internal error: " ++ .ofNat objects ++ " objects left after parsing"

end ParseError

/-- A container that is open. -/
inductive Frame where
  | dict (id : ObjectId)
  | array (id : ObjectId)
  deriving DecidableEq, Repr

/-- A configuration of the automaton. -/
structure Machine where
  heap : Heap
  /-- The objects to which the automaton holds references, the last one first. -/
  stack : List ObjectId
  /-- The open containers, the innermost first. -/
  frames : List Frame
  state : State
  deriving DecidableEq, Repr

/-- The actions of the automaton. One that fails may have changed the configuration before. -/
abbrev MachineM := EStateM ParseError Machine

namespace Machine

/-- The configuration before the first token. -/
def initial (heap : Heap) : Machine := ⟨heap, [], [], .value⟩

/-- Performs an operation on the heap. -/
def onHeap {α : Type} (operation : HeapM α) : MachineM α := fun ⟨heap, stack, frames, state⟩ =>
  match operation heap with
  | .ok result heap => .ok result ⟨heap, stack, frames, state⟩
  | .error misuse heap => .error (.misuse misuse) ⟨heap, stack, frames, state⟩

/-- Waits for something else. -/
def await (state : State) : MachineM Unit :=
  modify fun m => { m with state }

/-- Puts a new object on the stack. -/
def create (content : Content) : MachineM ObjectId := do
  let id ← onHeap (Heap.allocate content)
  modify fun m => { m with stack := id :: m.stack }
  return id

/-- Takes the object on top of the stack. -/
def pop : MachineM ObjectId := do
  match (← get).stack with
  | [] => throw (.unbalanced 0)
  | id :: stack =>
    modify fun m => { m with stack }
    return id

/-- The value of a string. -/
def stringValue (id : ObjectId) : MachineM Text := do
  match (← get).heap.string? id with
  | some text => return text
  | none => throw (.unbalanced 0)

/-- Attaches the value on top of the stack, which the token at `position` completes, to the
container that is open. -/
def attach (position : Position) : MachineM Unit := do
  match (← get).frames with
  | [] => await .documentEnd
  | .dict dict :: _ =>
    let value ← pop
    let key ← pop
    try
      let text ← stringValue key
      unless ← onHeap (Heap.add dict text value) do
        throw (.duplicateKey text position)
    finally
      onHeap (Heap.releaseAll [key, value])
    await .entryEnd
  | .array array :: _ =>
    let value ← pop
    try
      onHeap (Heap.push array value)
    finally
      onHeap (Heap.release value)
    await .itemEnd

/-- Starts a value with a token. -/
def startValue (t : PlacedToken) : MachineM Unit := do
  match t.token with
  | .word value | .quoted value =>
    let _ ← create (.string value)
    attach t.position
  | .mark .openBrace =>
    let id ← create (.dict .empty)
    modify fun m => { m with frames := .dict id :: m.frames, state := .keyOrClose }
  | .mark .openParen =>
    let id ← create (.array [])
    modify fun m => { m with frames := .array id :: m.frames, state := .itemOrClose }
  | _ => throw (.unexpected .value t)

/-- Closes the innermost container with the token at `position`. -/
def close (position : Position) : MachineM Unit := do
  match (← get).frames with
  | [] => throw (.unbalanced 0)
  | _ :: frames =>
    modify fun m => { m with frames }
    attach position

/-- The reaction to a token. -/
def step (t : PlacedToken) : MachineM Unit := do
  match (← get).state, t.token with
  | .value, _ => startValue t
  | .keyOrClose, .mark .closeBrace => close t.position
  | .keyOrClose, .word value | .keyOrClose, .quoted value =>
    let _ ← create (.string value)
    await .equals
  | .equals, .mark .equals => await .value
  | .entryEnd, .mark .semicolon => await .keyOrClose
  | .entryEnd, .mark .closeBrace => close t.position
  | .itemOrClose, .mark .closeParen => close t.position
  | .itemOrClose, _ => startValue t
  | .itemEnd, .mark .comma => await .itemOrClose
  | .itemEnd, .mark .closeParen => close t.position
  | .documentEnd, .mark .semicolon => await .ending
  | .documentEnd, .ending | .ending, .ending => await .done
  | .done, _ => return
  | state, _ => throw (.unexpected state t)

/-- Takes tokens in order. Where scanning failed, the error arises after the last of them. -/
def consume : List PlacedToken → Option LexError → MachineM Unit
  | [], none => pure ()
  | [], some e => throw (.lexical e)
  | t :: ts, error => do
    step t
    consume ts error

end Machine

end PropertyList
