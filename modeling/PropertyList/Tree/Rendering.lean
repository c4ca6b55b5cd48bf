import PropertyList.Text.Encoding
import PropertyList.Text.Quote
import PropertyList.Tree.Basic

/-!
# Rendering trees

A tree is rendered on one line or with every entry and item on a line of its own. The rendering
is made of *pieces*, in order; a piece is either in the output as a whole or not at all.

The indentation is the number of blanks per level, and zero stands for rendering on one line. A
negative product of indentation and level gives line breaks without blanks. A product that is no
64-bit number gives line breaks that cannot be written.

Trees may be of any depth and renderings of any length: neither the call stack nor the memory of
the machine is taken to be limited. Only a number of blanks is ever too large.

## Main definitions

* `Piece`, `Piece.bytes`
* `Tree.pieces`, `Tree.render`
-/

namespace PropertyList

/-- A piece of a rendering. -/
inductive Piece where
  | text (t : Text)
  /-- A line feed and a number of blanks. A negative number stands for none. -/
  | lineBreak (blanks : Int)
  deriving DecidableEq, Repr

namespace Piece

/-- The text of a piece. -/
def content : Piece → Text
  | text t => t
  | lineBreak blanks => .char '\n' :: List.replicate blanks.toNat (.char ' ')

/-- The bytes of a piece. -/
def bytes (p : Piece) : Bytes :=
  p.content.encode

/-- How many blanks a piece has, apart from those in texts. -/
def blanks : Piece → Nat
  | text _ => 0
  | lineBreak blanks => blanks.toNat

/-- Whether a piece has a number of blanks that is no 64-bit number. -/
def isOversized : Piece → Bool
  | text _ => false
  | lineBreak blanks => blanks < -0x8000000000000000 || 0x8000000000000000 ≤ blanks

end Piece

/-- The break in front of an entry, an item or a closing bracket at `level`. -/
def lineBreak (indent level : Int) : List Piece :=
  if indent = 0 then [] else [.lineBreak (indent * level)]

namespace Tree

mutual

/-- The pieces of a tree that stands at `level`. -/
def pieces (indent level : Int) : Tree → List Piece
  | string s => [.text s.quote]
  | array [] => [.text [.char '('], .text [.char ')']]
  | array (t :: ts) =>
    .text [.char '('] :: itemPieces indent (level + 1) (t :: ts) ++ lineBreak indent level
      ++ [.text [.char ')']]
  | dict [] => [.text [.char '{'], .text [.char '}']]
  | dict (entry :: entries) =>
    .text [.char '{'] :: entryPieces indent (level + 1) (entry :: entries) ++ lineBreak indent level
      ++ [.text [.char '}']]

/-- The pieces of the items of an array, with commas between them. -/
def itemPieces (indent level : Int) : List Tree → List Piece
  | [] => []
  | t :: ts =>
    lineBreak indent level ++ t.pieces indent level
      ++ (if ts.isEmpty then [] else [.text [.char ',']]) ++ itemPieces indent level ts

/-- The pieces of the entries of a dictionary, with a semicolon after each. -/
def entryPieces (indent level : Int) : List (Text × Tree) → List Piece
  | [] => []
  | (key, t) :: entries =>
    lineBreak indent level ++ .text (key.quote ++ [.char ' ', .char '=', .char ' '])
      :: t.pieces indent level ++ .text [.char ';'] :: entryPieces indent level entries

end

/-- The rendering of a tree that stands at `level`. -/
def render (indent level : Int) (t : Tree) : Text :=
  (t.pieces indent level).flatMap Piece.content

end Tree

end PropertyList
