import PropertyList.Text.Encoding

/-!
# Reading back what was written

Every byte string is read as a text that is written with the same bytes (`encode_decode`). The
converse fails, since stray bytes of a text may come to stand next to each other and spell a
character. The *recoding* of a text is what it is read back as.

An ASCII point is a single byte that is part of no longer character, so no character of a recoding
extends over one: what is in front of an ASCII point and what is behind it are recoded
independently of each other (`recode_append_cons`). A text is *sealed* when this holds of it and
everything that may follow.

## Main definitions

* `Text.recode`, `Text.Sealed`

## Main results

* `leadingChar?_eq_some_iff` : a byte string starts with a character if its UTF-8 form is a prefix.
* `Text.encode_decode`, `Text.encode_recode`
* `Text.recode_append_cons`, `Text.recode_flatMap_of_sealed`
-/

namespace PropertyList

/-! ### Characters as bytes -/

/-- A byte string starts with a character exactly if the form of the character is a prefix. -/
theorem leadingChar?_eq_some_iff {bytes : Bytes} {c : Char} :
    leadingChar? bytes = some c ↔ String.utf8EncodeChar c <+: bytes := by
  have hsize : (String.utf8EncodeChar c).length ≤ 4 := by
    rw [String.length_utf8EncodeChar]
    exact c.utf8Size_le_four
  constructor
  · intro h
    obtain ⟨rest, hrest⟩ := ByteArray.exists_of_utf8DecodeChar?_eq_some h
    have hlist := congrArg (fun b => b.data.toList) hrest
    simp only [List.data_toByteArray, ByteArray.data_append, Array.toList_append] at hlist
    exact (List.prefix_append _ _).trans (hlist ▸ List.take_prefix 4 bytes)
  · intro h
    obtain ⟨rest, hrest⟩ := List.prefix_take_iff.2 ⟨h, hsize⟩
    rw [leadingChar?, ← hrest, List.toByteArray_append]
    exact ByteArray.utf8DecodeChar?_utf8EncodeChar_append

private theorem le_or_of_le {x y : UInt8} (h : 0x80 ≤ y) : 0x80 ≤ x ||| y := by
  rw [UInt8.le_iff_toNat_le] at h ⊢
  rw [UInt8.toNat_or]
  exact Nat.le_trans h Nat.right_le_or

/-- A character of several bytes has no ASCII byte. -/
theorem le_of_mem_utf8EncodeChar {c : Char} (hc : c.utf8Size ≠ 1) :
    ∀ b ∈ String.utf8EncodeChar c, 0x80 ≤ b := by
  have hpos := c.utf8Size_pos
  have hle := c.utf8Size_le_four
  obtain h | h | h : c.utf8Size = 2 ∨ c.utf8Size = 3 ∨ c.utf8Size = 4 := by omega
  · simp [String.utf8EncodeChar_eq_cons_cons h, le_or_of_le]
  · simp [String.utf8EncodeChar_eq_cons_cons_cons h, le_or_of_le]
  · simp [String.utf8EncodeChar_eq_cons_cons_cons_cons h, le_or_of_le]

theorem utf8EncodeChar_ofNat {b : UInt8} (hb : b < 0x80) :
    String.utf8EncodeChar (Char.ofNat b.toNat) = [b] := by
  have hall : ∀ n : Fin 128, String.utf8EncodeChar (Char.ofNat n) = [UInt8.ofNat n] := by decide
  simpa using hall ⟨b.toNat, UInt8.lt_iff_toNat_lt.1 hb⟩

namespace Point

/-! ### Points as bytes -/

theorem ofByte_of_lt {b : UInt8} (hb : b < 0x80) : ofByte b = .char (Char.ofNat b.toNat) := by
  have hlt : ¬ 0x80 ≤ b.toNat := Nat.not_le.2 (UInt8.lt_iff_toNat_lt.1 hb)
  rw [ofByte, dif_neg hlt]

@[simp]
theorem encode_ofByte (b : UInt8) : (ofByte b).encode = [b] := by
  by_cases hb : b < 0x80
  · rw [ofByte_of_lt hb]
    exact utf8EncodeChar_ofNat hb
  · have hle : 0x80 ≤ b.toNat := UInt8.le_iff_toNat_le.1 (UInt8.not_lt.1 hb)
    have hsum : 0x80 + (b.toNat - 0x80) = b.toNat := by omega
    rw [ofByte, dif_pos hle, encode, hsum, UInt8.ofNat_toNat]

/-- A point is a single ASCII byte, or it has no ASCII byte. -/
theorem eq_ofByte_or_le (p : Point) :
    (∃ b : UInt8, b < 0x80 ∧ p = ofByte b) ∨ ∀ b ∈ p.encode, 0x80 ≤ b := by
  cases p with
  | char c =>
    by_cases hc : c.utf8Size = 1
    · have hval : c.val.toNat ≤ 127 := UInt32.le_iff_toNat_le.1 (Char.utf8Size_eq_one_iff.1 hc)
      have hlt : c.val.toUInt8 < 0x80 := by
        rw [UInt8.lt_iff_toNat_lt, UInt32.toNat_toUInt8]
        exact Nat.lt_of_le_of_lt (Nat.mod_le _ _) (Nat.lt_succ_of_le hval)
      have hnat : c.val.toUInt8.toNat = c.toNat := by
        rw [UInt32.toNat_toUInt8]
        exact Nat.mod_eq_of_lt (by omega)
      exact Or.inl ⟨c.val.toUInt8, hlt, by rw [ofByte_of_lt hlt, hnat, Char.ofNat_toNat]⟩
    · exact Or.inr (le_of_mem_utf8EncodeChar hc)
  | stray low =>
    refine Or.inr fun b hb => ?_
    obtain rfl := List.mem_singleton.1 hb
    rw [UInt8.le_iff_toNat_le, UInt8.toNat_ofNat']
    have hlow := low.isLt
    simp only [UInt8.toNat_ofNat]
    omega

theorem encode_ne_nil (p : Point) : p.encode ≠ [] := by
  cases p with
  | char c =>
    refine List.ne_nil_of_length_pos ?_
    rw [encode, String.length_utf8EncodeChar]
    exact c.utf8Size_pos
  | stray low => exact List.cons_ne_nil _ _

/-- Whether a point is an ASCII character. -/
def isAscii : Point → Bool
  | .char c => c.toNat < 0x80
  | .stray _ => false

theorem exists_eq_ofByte {p : Point} (hp : p.isAscii) : ∃ b : UInt8, b < 0x80 ∧ p = ofByte b := by
  refine p.eq_ofByte_or_le.resolve_right fun hle => ?_
  cases p with
  | char c =>
    have hlt : c.toNat < 0x80 := of_decide_eq_true hp
    have hone : c.utf8Size = 1 := by
      rw [Char.utf8Size_eq_one_iff, UInt32.le_iff_toNat_le]
      exact Nat.le_of_lt_succ hlt
    have hb := hle c.val.toUInt8 (by simp [encode, String.utf8EncodeChar_eq_singleton hone])
    rw [UInt8.le_iff_toNat_le, UInt32.toNat_toUInt8] at hb
    have hmod := Nat.mod_le c.val.toNat (2 ^ 8)
    exact absurd (Nat.le_trans hb hmod) (Nat.not_le.2 hlt)
  | stray low => exact absurd hp (by simp [isAscii])

end Point

namespace Text

@[simp]
theorem encode_nil : encode [] = [] := rfl

@[simp]
theorem encode_cons (p : Point) (t : Text) : encode (p :: t) = p.encode ++ encode t := rfl

@[simp]
theorem encode_append (s t : Text) : encode (s ++ t) = encode s ++ encode t :=
  List.flatMap_append

theorem encode_eq_nil_iff {t : Text} : t.encode = [] ↔ t = [] := by
  cases t with
  | nil => simp
  | cons p t => simp [Point.encode_ne_nil]

/-- The ASCII bytes of a text are its ASCII points. -/
theorem mem_encode_iff {b : UInt8} (hb : b < 0x80) {t : Text} :
    b ∈ t.encode ↔ Point.ofByte b ∈ t := by
  constructor
  · intro h
    obtain ⟨p, hp, hbp⟩ := List.mem_flatMap.1 h
    rcases p.eq_ofByte_or_le with ⟨b', -, rfl⟩ | hle
    · rw [Point.encode_ofByte, List.mem_singleton] at hbp
      rwa [hbp]
    · exact absurd (hle b hbp) (UInt8.not_le.2 hb)
  · intro h
    exact List.mem_flatMap.2 ⟨_, h, by simp⟩

/-! ### Reading bytes -/

theorem decode_nil : decode [] = [] := by
  rw [decode]

theorem decode_of_leadingChar {b : UInt8} {rest : Bytes} {c : Char}
    (h : leadingChar? (b :: rest) = some c) :
    decode (b :: rest) = .char c :: decode (rest.drop (c.utf8Size - 1)) := by
  rw [decode, h]

theorem decode_of_no_leadingChar {b : UInt8} {rest : Bytes}
    (h : leadingChar? (b :: rest) = none) : decode (b :: rest) = .ofByte b :: decode rest := by
  rw [decode, h]

/-- What follows a leading character, in the bytes behind the first. -/
private theorem eq_append_of_leadingChar {b : UInt8} {rest : Bytes} {c : Char}
    (h : leadingChar? (b :: rest) = some c) :
    b :: rest = String.utf8EncodeChar c ++ rest.drop (c.utf8Size - 1) := by
  obtain ⟨after, hafter⟩ := leadingChar?_eq_some_iff.1 h
  have hdrop : (b :: rest).drop c.utf8Size = after := by
    rw [← hafter, ← String.length_utf8EncodeChar c, List.drop_left]
  have hsize : c.utf8Size = c.utf8Size - 1 + 1 := (Nat.sub_add_cancel c.utf8Size_pos).symm
  rw [hsize, List.drop_succ_cons] at hdrop
  rw [hdrop, hafter]

/-- Writing what was read gives the bytes back. -/
@[simp]
theorem encode_decode (bytes : Bytes) : (decode bytes).encode = bytes := by
  fun_induction decode bytes with
  | case1 => rfl
  | case2 b rest c hc ih =>
    rw [encode_cons, ih]
    exact (eq_append_of_leadingChar hc).symm
  | case3 b rest hc ih => simp [ih]

/-- An ASCII byte in front is a point of its own. -/
theorem decode_cons {b : UInt8} (hb : b < 0x80) (bytes : Bytes) :
    decode (b :: bytes) = .ofByte b :: decode bytes := by
  have henc := utf8EncodeChar_ofNat hb
  have hlead : leadingChar? (b :: bytes) = some (Char.ofNat b.toNat) := by
    rw [leadingChar?_eq_some_iff, henc]
    exact List.prefix_append [b] bytes
  have hsize : (Char.ofNat b.toNat).utf8Size = 1 := by
    rw [← String.length_utf8EncodeChar, henc]
    rfl
  rw [decode_of_leadingChar hlead, hsize, Point.ofByte_of_lt hb]
  rfl

/-- No character extends over an ASCII byte. -/
private theorem prefix_of_prefix_append_cons {c : Char} {u v : Bytes} {b : UInt8} (hb : b < 0x80)
    (hu : u ≠ []) (h : String.utf8EncodeChar c <+: u ++ b :: v) :
    String.utf8EncodeChar c <+: u := by
  rcases Nat.lt_or_ge u.length (String.utf8EncodeChar c).length with hlt | hge
  · have hone : c.utf8Size ≠ 1 := by
      have hpos := List.length_pos_iff.2 hu
      rw [String.length_utf8EncodeChar] at hlt
      omega
    have hmem : b ∈ String.utf8EncodeChar c := by
      obtain ⟨after, hafter⟩ := h
      have hget : (String.utf8EncodeChar c ++ after)[u.length]? = some b := by
        rw [hafter]
        simp
      rw [List.getElem?_append_left hlt] at hget
      exact List.mem_of_getElem? hget
    exact absurd (le_of_mem_utf8EncodeChar hone b hmem) (UInt8.not_le.2 hb)
  · exact List.prefix_of_prefix_length_le h (List.prefix_append u _) hge

/-- What is in front of an ASCII byte and what is behind it are read independently. -/
theorem decode_append_cons {b : UInt8} (hb : b < 0x80) (u v : Bytes) :
    decode (u ++ b :: v) = decode u ++ .ofByte b :: decode v := by
  fun_induction decode u with
  | case1 => exact decode_cons hb v
  | case2 a rest c hc ih =>
    have hpre := leadingChar?_eq_some_iff.1 hc
    have hlead : leadingChar? (a :: (rest ++ b :: v)) = some c :=
      leadingChar?_eq_some_iff.2 (hpre.trans (List.prefix_append (a :: rest) _))
    have hlen : c.utf8Size - 1 ≤ rest.length := by
      have := hpre.length_le
      rw [String.length_utf8EncodeChar, List.length_cons] at this
      omega
    rw [List.cons_append, decode_of_leadingChar hlead, List.drop_append_of_le_length hlen, ih]
    rfl
  | case3 a rest hc ih =>
    have hlead : leadingChar? (a :: (rest ++ b :: v)) = none := by
      refine Option.eq_none_iff_forall_ne_some.2 fun c hsome => ?_
      have hpre := prefix_of_prefix_append_cons hb (List.cons_ne_nil a rest)
        (leadingChar?_eq_some_iff.1 hsome)
      rw [leadingChar?_eq_some_iff.2 hpre] at hc
      exact absurd hc (by simp)
    rw [List.cons_append, decode_of_no_leadingChar hlead, ih]
    rfl

/-! ### Recoding -/

/-- The text that a text is read back as, after it has been written. -/
def recode (t : Text) : Text :=
  decode t.encode

@[simp]
theorem recode_nil : recode [] = [] :=
  decode_nil

@[simp]
theorem encode_recode (t : Text) : t.recode.encode = t.encode :=
  encode_decode t.encode

@[simp]
theorem recode_recode (t : Text) : t.recode.recode = t.recode := by
  rw [recode, encode_recode, recode]

@[simp]
theorem recode_decode (bytes : Bytes) : (decode bytes).recode = decode bytes := by
  rw [recode, encode_decode]

/-- Texts with the same recoding are those written with the same bytes. -/
theorem recode_eq_recode_iff {s t : Text} : s.recode = t.recode ↔ s.encode = t.encode := by
  constructor
  · intro h
    rw [← encode_recode s, h, encode_recode]
  · intro h
    rw [recode, h, recode]

/-- The ASCII points of a recoding are those of the text. -/
theorem mem_recode_iff {p : Point} (hp : p.isAscii) {t : Text} : p ∈ t.recode ↔ p ∈ t := by
  obtain ⟨b, hb, rfl⟩ := Point.exists_eq_ofByte hp
  rw [← mem_encode_iff hb, encode_recode, mem_encode_iff hb]

/-- What is in front of an ASCII point and what is behind it are recoded independently. -/
theorem recode_append_cons {p : Point} (hp : p.isAscii) (s t : Text) :
    recode (s ++ p :: t) = recode s ++ p :: recode t := by
  obtain ⟨b, hb, rfl⟩ := Point.exists_eq_ofByte hp
  rw [recode, encode_append, encode_cons, Point.encode_ofByte, List.singleton_append,
    decode_append_cons hb, recode, recode]

theorem recode_cons {p : Point} (hp : p.isAscii) (t : Text) : recode (p :: t) = p :: recode t := by
  simpa using recode_append_cons hp [] t

/-- A text of ASCII points is read back as itself. -/
theorem recode_of_isAscii {t : Text} (ht : ∀ p ∈ t, p.isAscii) : t.recode = t := by
  induction t with
  | nil => exact recode_nil
  | cons p t ih =>
    rw [recode_cons (ht p List.mem_cons_self), ih fun q hq => ht q (List.mem_cons_of_mem _ hq)]

/-- A text is sealed when no stray byte of it comes to spell a character with what follows. -/
def Sealed (s : Text) : Prop :=
  ∀ t, recode (s ++ t) = recode s ++ recode t

theorem sealed_nil : Sealed [] := fun t => by
  rw [recode_nil]
  rfl

theorem sealed_append_singleton (s : Text) {p : Point} (hp : p.isAscii) : Sealed (s ++ [p]) := by
  intro t
  rw [List.append_assoc, List.singleton_append, recode_append_cons hp, recode_append_cons hp,
    recode_nil, List.append_assoc, List.singleton_append]

theorem sealed_of_isAscii {s : Text} (hs : ∀ p ∈ s, p.isAscii) : Sealed s := by
  rcases List.eq_nil_or_concat s with rfl | ⟨s, p, rfl⟩
  · exact sealed_nil
  · rw [List.concat_eq_append] at hs ⊢
    exact sealed_append_singleton s (hs p (by simp))

/-- Sealed texts in a row are recoded one by one. -/
theorem recode_flatMap_of_sealed {α : Type} {f : α → Text} {l : List α}
    (h : ∀ a ∈ l, Sealed (f a)) : recode (l.flatMap f) = l.flatMap fun a => recode (f a) := by
  induction l with
  | nil => exact recode_nil
  | cons a l ih =>
    rw [List.flatMap_cons, List.flatMap_cons, h a List.mem_cons_self,
      ih fun b hb => h b (List.mem_cons_of_mem _ hb)]

end Text

end PropertyList
