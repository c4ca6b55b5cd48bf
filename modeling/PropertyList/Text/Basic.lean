/-!
# Texts

A text is a sequence of points. A point is a Unicode character or a *stray byte*: a byte of the
range `80`–`FF` that belongs to no character. Documents are bytes and may be malformed, and stray
bytes are what lets every byte string be read as a text and written back unchanged.

Two texts are equal when their points are. A text whose stray bytes happen to spell a character
is therefore different from the text holding that character, although both are written with the
same bytes (`PropertyList.Text.encode`).

## Main definitions

* `Point`, `Text`, `Bytes`
* `Text.ofString`, which also serves as a coercion, and `Text.ofNat`, `Text.ofInt`
-/

namespace PropertyList

/-- A unit of a text. -/
inductive Point where
  /-- A Unicode character. -/
  | char (c : Char)
  /-- The byte `80 + low` (in hexadecimal `80`–`FF`), which is part of no character. -/
  | stray (low : Fin 128)
  deriving DecidableEq, Repr, Inhabited

/-- A sequence of points. -/
abbrev Text := List Point

/-- A sequence of bytes. -/
abbrev Bytes := List UInt8

namespace Text

/-- The text with the characters of `s`. -/
def ofString (s : String) : Text :=
  s.toList.map .char

instance : Coe String Text := ⟨ofString⟩

/-- The decimal numeral of `n`, without leading zeros. -/
def ofNat (n : Nat) : Text :=
  (Nat.toDigits 10 n).map .char

/-- The decimal numeral of `n`, with a minus sign in front of a negative number. -/
def ofInt : Int → Text
  | .ofNat n => ofNat n
  | .negSucc n => .char '-' :: ofNat (n + 1)

/-- The hexadecimal numeral of `n` in lower case, filled up with zeros to `width` digits. -/
def ofHex (width n : Nat) : Text :=
  ((Nat.toDigits 16 n).leftpad width '0').map .char

/-- The texts one after the other, with `separator` between neighbours. -/
def join (separator : Text) : List Text → Text
  | [] => []
  | [t] => t
  | t :: ts => t ++ separator ++ join separator ts

end Text

/-- The code point by which texts are displayed; a stray byte `xx` counts as `DCxx`. -/
def Point.code : Point → Nat
  | .char c => c.toNat
  | .stray low => 0xDC80 + low

end PropertyList
