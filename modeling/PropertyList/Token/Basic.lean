import PropertyList.Text.Display

/-!
# Tokens

A document is read as a sequence of tokens: the seven punctuation marks, words, quoted strings and
the end of the input. Words and quoted strings both stand for strings. Every token carries the
position of its first point.

## Main definitions

* `Position`, with `Position.advance` for the position after a stretch of text
* `Mark`, `Token`, `PlacedToken`
* `Token.display`, the token as messages name it
-/

namespace PropertyList

/-- A place in a document. Lines and columns are counted from one, and columns count points. -/
structure Position where
  line : Nat
  column : Nat
  deriving DecidableEq, Repr, Inhabited

namespace Position

/-- The first place of a document. -/
def start : Position := ⟨1, 1⟩

/-- The place after the point `p`. Only a line feed ends a line. -/
def step (pos : Position) (p : Point) : Position :=
  if p = .char '\n' then ⟨pos.line + 1, 1⟩ else ⟨pos.line, pos.column + 1⟩

/-- The place after the text `t`. -/
def advance (pos : Position) (t : Text) : Position :=
  t.foldl step pos

/-- A message about a place, which is written in front of it. -/
def message (pos : Position) (text : Text) : Text :=
  .ofNat pos.line ++ ":" ++ .ofNat pos.column ++ ": " ++ text

end Position

/-- A punctuation mark. -/
inductive Mark where
  | openBrace
  | closeBrace
  | openParen
  | closeParen
  | equals
  | semicolon
  | comma
  deriving DecidableEq, Repr

namespace Mark

/-- The character of a mark. -/
def char : Mark → Char
  | openBrace => '{'
  | closeBrace => '}'
  | openParen => '('
  | closeParen => ')'
  | equals => '='
  | semicolon => ';'
  | comma => ','

/-- The mark that a point is. -/
def ofPoint? (p : Point) : Option Mark :=
  [openBrace, closeBrace, openParen, closeParen, equals, semicolon, comma].find? fun m =>
    p = .char m.char

end Mark

/-- A token. -/
inductive Token where
  | mark (m : Mark)
  /-- A string written without quotation marks. -/
  | word (value : Text)
  /-- A string written between quotation marks; `value` is the string, with escapes undone. -/
  | quoted (value : Text)
  /-- The end of the input. -/
  | ending
  deriving DecidableEq, Repr

namespace Token

/-- The string that a token stands for. -/
def string? : Token → Option Text
  | word value | quoted value => some value
  | mark _ | ending => none

/-- A token as messages name it. -/
def display : Token → Text
  | mark m => Text.display [.char m.char]
  | word value | quoted value => "string " ++ value.display
  | ending => "end of input"

end Token

/-- A token and the position of its first point. -/
structure PlacedToken where
  token : Token
  position : Position
  deriving DecidableEq, Repr

end PropertyList
