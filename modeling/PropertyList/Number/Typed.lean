import PropertyList.Number.Numeral
import PropertyList.Text.Numeral

/-!
# Numerals as people type them

A typed numeral may have blanks around it, digits of any script, and single underscores between
digits.

## Main definitions

* `Numeral.typedInteger?`, `Numeral.typedReal?`
-/

namespace PropertyList.Numeral

/-- The text without the underscores that stand between digits. An underscore anywhere else makes
it no numeral. -/
def dropUnderscores? (t : Text) : Option Text :=
  go false t
where
  go (afterDigit : Bool) : Text → Option Text
    | [] => some []
    | p :: rest =>
      if p = .char '_' then
        if afterDigit && (rest.head?.any isDigit) then go false rest else none
      else (go (isDigit p) rest).map (p :: ·)

/-- The sign and the digits of a typed integer. -/
def typedInteger? (t : Text) : Option (Bool × Text) :=
  (dropUnderscores? t.plainNumeral).bind splitInteger?

/-- The number that a typed numeral spells. -/
def typedReal? (t : Text) : Option Spelled :=
  (dropUnderscores? t.plainNumeral).bind readReal?

end PropertyList.Numeral
