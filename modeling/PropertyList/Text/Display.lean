import PropertyList.Text.Printable

/-!
# Texts in messages

A message shows a text between quotation marks on one line. The marks are single, or double where
the text has a single mark and no double one. The mark in use and the backslash are escaped by a
backslash; line feed, carriage return and tab have letters of their own; any other unprintable
point is written by its code in two, four or eight hexadecimal digits.

## Main definitions

* `Text.display`
-/

namespace PropertyList

/-- The code of a point in the fewest of two, four or eight hexadecimal digits. -/
def Point.escapedCode (p : Point) : Text :=
  if p.code < 0x100 then .char '\\' :: .char 'x' :: Text.ofHex 2 p.code
  else if p.code < 0x10000 then .char '\\' :: .char 'u' :: Text.ofHex 4 p.code
  else .char '\\' :: .char 'U' :: Text.ofHex 8 p.code

/-- How a point is shown between two marks `mark`. -/
def Point.display (mark : Char) (p : Point) : Text :=
  if p = .char mark ∨ p = .char '\\' then [.char '\\', p]
  else if p = .char '\n' then [.char '\\', .char 'n']
  else if p = .char '\r' then [.char '\\', .char 'r']
  else if p = .char '\t' then [.char '\\', .char 't']
  else if p.isPrintable then [p]
  else p.escapedCode

namespace Text

/-- The quotation mark that a text is shown with. -/
def displayMark (t : Text) : Char :=
  if .char '\x27' ∈ t ∧ .char '"' ∉ t then '"' else '\x27'

/-- A text as messages show it. -/
def display (t : Text) : Text :=
  .char t.displayMark :: t.flatMap (Point.display t.displayMark) ++ [.char t.displayMark]

/-- An optional text as messages show it. -/
def displayOption : Option Text → Text
  | some t => t.display
  | none => ofString "None"

end Text

end PropertyList
