import PropertyList.Text.Basic

/-!
# Texts as bytes

Characters are written in UTF-8 and a stray byte is written as itself. Reading takes the longest
view of the bytes as characters: at each place it takes the UTF-8 character that starts there, and
a byte at which no character starts becomes a stray byte. Overlong forms, encoded surrogates and
numbers above `10FFFF` are no characters, so each of their bytes is stray.

Writing what was read gives the same bytes back. Reading what was written gives the same text
back unless stray bytes come to spell a character.

## Main definitions

* `Text.encode`, `Text.decode`
* `Text.precedes`, the order of texts by their bytes
-/

namespace PropertyList

/-- The bytes that a point is written with. -/
def Point.encode : Point → Bytes
  | .char c => String.utf8EncodeChar c
  | .stray low => [UInt8.ofNat (0x80 + low)]

/-- The point for a byte that is a character by itself or part of no character. -/
def Point.ofByte (b : UInt8) : Point :=
  if h : 0x80 ≤ b.toNat then
    .stray ⟨b.toNat - 0x80, by have := b.toNat_lt; omega⟩
  else
    .char (Char.ofNat b.toNat)

/-- The character whose UTF-8 form `bytes` starts with. No character takes more than four. -/
def leadingChar? (bytes : Bytes) : Option Char :=
  (bytes.take 4).toByteArray.utf8DecodeChar? 0

namespace Text

/-- The bytes that a text is written with. -/
def encode (t : Text) : Bytes :=
  t.flatMap Point.encode

/-- The text that a byte string is read as. -/
def decode : Bytes → Text
  | [] => []
  | b :: rest =>
    match leadingChar? (b :: rest) with
    | some c => .char c :: decode (rest.drop (c.utf8Size - 1))
    | none => .ofByte b :: decode rest
  termination_by bytes => bytes.length
  decreasing_by all_goals simp_wf; try omega

/-- Whether the bytes of `s` come strictly before those of `t`, byte by byte. -/
def precedes (s t : Text) : Bool :=
  decide (s.encode < t.encode)

end Text

end PropertyList
