import PropertyList.Token.Scan

/-!
# Strings in documents

A string is written as a bare word where it can be, and otherwise between quotation marks with a
backslash in front of every backslash and quotation mark.

## Main definitions

* `Text.quote`
-/

namespace PropertyList

/-- How a point is written between quotation marks. -/
def Point.escape (p : Point) : Text :=
  if p = .char '"' ∨ p = .char '\\' then [.char '\\', p] else [p]

namespace Text

/-- Whether a text can be written without quotation marks. -/
def isBareWord (t : Text) : Bool :=
  !t.isEmpty && t.all Point.isWord

/-- A string as documents write it. -/
def quote (t : Text) : Text :=
  if t.isBareWord then t else .char '"' :: t.flatMap Point.escape ++ [.char '"']

end Text

end PropertyList
