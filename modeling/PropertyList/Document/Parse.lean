import PropertyList.Document.Automaton

/-!
# Parsing documents

Parsing a document yields its root object, to which the caller gets the only reference. A document
that is refused leaves no object behind: the automaton gives back every reference that it holds.

## Main definitions

* `Document.parse`, `Document.parseBytes`
-/

namespace PropertyList.Document

/-- Operations on a heap that fail with a parse error. -/
abbrev ParseM := EStateM ParseError Heap

/-- Gives back the references that a failed automaton holds, and fails with its error. -/
def refuse {α : Type} (stack : List ObjectId) (e : ParseError) : ParseM α := fun h =>
  match Heap.releaseAll stack h with
  | .ok () h => .error e h
  | .error misuse h => .error (.misuse misuse) h

/-- The root object of a document. -/
def parse (t : Text) : ParseM ObjectId := fun h =>
  match Machine.consume t.scan.tokens t.scan.error (.initial h) with
  | .ok () ⟨h, [root], _, _⟩ => .ok root h
  | .ok () m => refuse m.stack (.unbalanced m.stack.length) m.heap
  | .error e m => refuse m.stack e m.heap

/-- The root object of a document that is given by its bytes. -/
def parseBytes (bytes : Bytes) : ParseM ObjectId :=
  parse (.decode bytes)

end PropertyList.Document
